import Mathlib.Data.Finset.Prod
import Mathlib.Order.Interval.Finset.Nat
import Engraver.Proofs.Raster.Pixels

/-! # Buffers and their pixels

An image is accepted when its buffer has exactly the size that is asked for. Its pixels share out
the buffer among them, and each can be sampled. A size that 64 bits cannot count is never compared:
the construction fails without an error to return.
-/

namespace Engraver.Image

section Acceptance

variable {w h : UInt32} {mode : PixelMode} {data : Array UInt8} {colors : Array Color} {i : Image}

section Validated

variable {hcolors : mode = .palette → colors ≠ #[]}
  {hindices : mode = .palette → ∀ b ∈ data, b.toNat < colors.size}

theorem validated?_eq_ok_iff :
    validated? w h mode data colors hcolors hindices = some (.ok i) ↔
      i.width = w ∧ i.height = h ∧ i.mode = mode ∧ i.data = data ∧ i.colors = colors := by
  constructor
  · intro hi
    unfold validated? at hi
    split at hi
    · cases hi
    · split at hi
      · cases hi
        exact ⟨rfl, rfl, rfl, rfl, rfl⟩
      · obtain ⟨_, -, hi⟩ := Option.map_eq_some_iff.mp hi
        cases hi
  · obtain ⟨w', h', mode', data', colors', hvalid⟩ := i
    rintro ⟨rfl, rfl, rfl, rfl, rfl⟩
    have hne : ¬ (w' = 0 ∨ h' = 0) := not_or.mpr ⟨hvalid.width_ne_zero, hvalid.height_ne_zero⟩
    rw [validated?, dif_neg hne, dif_pos hvalid.size_eq]

theorem exists_validated?_iff :
    (∃ i, validated? w h mode data colors hcolors hindices = some (.ok i)) ↔
      w ≠ 0 ∧ h ≠ 0 ∧ expectedSize? w h mode = some data.size := by
  simp only [validated?_eq_ok_iff]
  constructor
  · rintro ⟨i, rfl, rfl, rfl, rfl, -⟩
    exact ⟨i.valid.width_ne_zero, i.valid.height_ne_zero, i.valid.size_eq⟩
  · rintro ⟨hw, hh, hsize⟩
    exact ⟨⟨w, h, mode, data, colors, hw, hh, hsize, hcolors, hindices⟩, rfl, rfl, rfl, rfl, rfl⟩

theorem validated?_eq_none_iff :
    validated? w h mode data colors hcolors hindices = none ↔
      w ≠ 0 ∧ h ≠ 0 ∧ expectedSize? w h mode = none := by
  unfold validated?
  split
  case isTrue hzero => exact iff_of_false nofun fun hn => hzero.elim hn.1 hn.2.1
  case isFalse hzero =>
    obtain ⟨hw, hh⟩ := not_or.mp hzero
    split
    case isTrue hsize => simp [hsize]
    case isFalse => simp [hw, hh]

end Validated

theorem ofPixels?_of_ne (hm : mode ≠ .palette) :
    ofPixels? w h mode data = validated? w h mode data #[] (absurd · hm) (absurd · hm) :=
  dif_neg hm

theorem ofPixels?_palette : ofPixels? w h .palette data = some (.error .missingPalette) :=
  rfl

theorem ofPixels?_eq_ok_iff :
    ofPixels? w h mode data = some (.ok i) ↔
      mode ≠ .palette ∧ i.width = w ∧ i.height = h ∧ i.mode = mode ∧ i.data = data ∧
        i.colors = #[] := by
  by_cases hm : mode = .palette
  · subst hm
    exact iff_of_false (by rw [ofPixels?_palette]; nofun) fun hi => hi.1 rfl
  · rw [ofPixels?_of_ne hm, validated?_eq_ok_iff]
    exact (and_iff_right hm).symm

theorem exists_ofPixels?_iff :
    (∃ i, ofPixels? w h mode data = some (.ok i)) ↔
      w ≠ 0 ∧ h ≠ 0 ∧ mode ≠ .palette ∧ expectedSize? w h mode = some data.size := by
  by_cases hm : mode = .palette
  · subst hm
    exact iff_of_false (by rw [ofPixels?_palette]; rintro ⟨_, h⟩; cases h) fun hi => hi.2.2.1 rfl
  · rw [ofPixels?_of_ne hm, exists_validated?_iff]
    exact ⟨fun ⟨hw, hh, hs⟩ => ⟨hw, hh, hm, hs⟩, fun ⟨hw, hh, _, hs⟩ => ⟨hw, hh, hs⟩⟩

theorem ofPixels?_eq_none_iff :
    ofPixels? w h mode data = none ↔
      w ≠ 0 ∧ h ≠ 0 ∧ mode ≠ .palette ∧ 2 ^ 64 ≤ w.toNat * h.toNat * mode.bytesPerPixel := by
  by_cases hm : mode = .palette
  · subst hm
    exact iff_of_false (by rw [ofPixels?_palette]; nofun) fun hi => hi.2.2.1 rfl
  · rw [ofPixels?_of_ne hm, validated?_eq_none_iff, expectedSize?_eq_none_iff]
    exact ⟨fun ⟨hw, hh, hs⟩ => ⟨hw, hh, hm, hs⟩, fun ⟨hw, hh, _, hs⟩ => ⟨hw, hh, hs⟩⟩

theorem mul_toNat_lt (w h : UInt32) : w.toNat * h.toNat < 2 ^ 64 :=
  (Nat.mul_lt_mul'' w.toNat_lt h.toNat_lt).trans_eq (by norm_num)

theorem expectedSize?_of_one (w h : UInt32) (hm : mode.bytesPerPixel = 1) :
    expectedSize? w h mode = some (w.toNat * h.toNat) := by
  rw [expectedSize?_eq_some_iff, hm, Nat.mul_one]
  exact ⟨rfl, mul_toNat_lt w h⟩

theorem ofIndices?_of_lt (hc : colors ≠ #[]) (hb : ∀ b ∈ data, b.toNat < colors.size) :
    ofIndices? w h data colors =
      validated? w h .palette data colors (fun _ => hc) fun _ => hb := by
  have hfind : (data.find? fun i => colors.size ≤ i.toNat) = none := by
    refine Array.find?_eq_none.mpr fun b hmem => ?_
    have := hb b hmem
    simpa using this
  unfold ofIndices?
  rw [dif_neg hc]
  split
  · next i hi => rw [hfind] at hi; cases hi
  · rfl

theorem exists_ofIndices?_eq_error (hn : ¬ (colors ≠ #[] ∧ ∀ b ∈ data, b.toNat < colors.size)) :
    ∃ e, ofIndices? w h data colors = some (.error e) := by
  unfold ofIndices?
  split
  case isTrue => exact ⟨_, rfl⟩
  case isFalse hc =>
    split
    · exact ⟨_, rfl⟩
    · next hfind =>
      refine absurd ⟨hc, fun b hb => ?_⟩ hn
      simpa using Array.find?_eq_none.mp hfind b hb

theorem ofIndices?_eq_ok_iff :
    ofIndices? w h data colors = some (.ok i) ↔
      i.width = w ∧ i.height = h ∧ i.mode = .palette ∧ i.data = data ∧ i.colors = colors := by
  by_cases hp : colors ≠ #[] ∧ ∀ b ∈ data, b.toNat < colors.size
  · rw [ofIndices?_of_lt hp.1 hp.2, validated?_eq_ok_iff]
  · obtain ⟨e, he⟩ := exists_ofIndices?_eq_error (w := w) (h := h) hp
    refine iff_of_false (by rw [he]; nofun) ?_
    rintro ⟨-, -, hm, rfl, rfl⟩
    exact hp ⟨i.valid.colors_ne_empty hm, i.valid.index_lt hm⟩

theorem exists_ofIndices?_iff :
    (∃ i, ofIndices? w h data colors = some (.ok i)) ↔
      w ≠ 0 ∧ h ≠ 0 ∧ colors ≠ #[] ∧ (∀ b ∈ data, b.toNat < colors.size) ∧
        data.size = w.toNat * h.toNat := by
  by_cases hp : colors ≠ #[] ∧ ∀ b ∈ data, b.toNat < colors.size
  · rw [ofIndices?_of_lt hp.1 hp.2, exists_validated?_iff, expectedSize?_of_one w h rfl,
      Option.some.injEq, eq_comm (a := w.toNat * h.toNat)]
    exact ⟨fun ⟨hw, hh, hs⟩ => ⟨hw, hh, hp.1, hp.2, hs⟩, fun ⟨hw, hh, _, _, hs⟩ => ⟨hw, hh, hs⟩⟩
  · obtain ⟨e, he⟩ := exists_ofIndices?_eq_error (w := w) (h := h) hp
    refine iff_of_false (by rw [he]; rintro ⟨_, h⟩; cases h) ?_
    rintro ⟨-, -, hc, hb, -⟩
    exact hp ⟨hc, hb⟩

theorem ofIndices?_ne_none : ofIndices? w h data colors ≠ none := by
  by_cases hp : colors ≠ #[] ∧ ∀ b ∈ data, b.toNat < colors.size
  · rw [ofIndices?_of_lt hp.1 hp.2, Ne, validated?_eq_none_iff, expectedSize?_of_one w h rfl]
    rintro ⟨-, -, hnone⟩
    cases hnone
  · obtain ⟨e, he⟩ := exists_ofIndices?_eq_error (w := w) (h := h) hp
    rw [he]
    nofun

end Acceptance

def pixels (i : Image) : Finset (Nat × Nat) :=
  Finset.range i.width.toNat ×ˢ Finset.range i.height.toNat

def firstPlace (i : Image) (p : Nat × Nat) : Nat :=
  (p.2 * i.width.toNat + p.1) * i.mode.bytesPerPixel

/-- The places in the buffer that are for the bytes of a pixel. -/
def places (i : Image) (p : Nat × Nat) : Finset Nat :=
  Finset.Ico (i.firstPlace p) (i.firstPlace p + i.mode.bytesPerPixel)

/-- Within its bounds, and only there, an image has pixels and intensities. The pixels have the
bytes at their places, which share out the buffer. -/
structure Sampled (i : Image) : Prop where
  isSome_pixel?_iff : ∀ x y, (i.pixel? x y).isSome ↔ x < i.width.toNat ∧ y < i.height.toNat
  isSome_intensity?_iff :
    ∀ x y, (i.intensity? x y).isSome ↔ x < i.width.toNat ∧ y < i.height.toNat
  pixel : ∀ x y bytes, i.pixel? x y = some bytes →
    bytes.length = i.mode.bytesPerPixel ∧
      bytes = (i.data.extract (i.firstPlace (x, y))
        (i.firstPlace (x, y) + i.mode.bytesPerPixel)).toList
  pairwiseDisjoint_places : (i.pixels : Set (Nat × Nat)).PairwiseDisjoint i.places
  biUnion_places : i.pixels.biUnion i.places = Finset.range i.data.size

variable {i : Image}

theorem mem_pixels {p : Nat × Nat} :
    p ∈ i.pixels ↔ p.1 < i.width.toNat ∧ p.2 < i.height.toNat := by
  simp [pixels]

theorem mem_places_iff {p : Nat × Nat} {n : Nat} :
    n ∈ i.places p ↔ n / i.mode.bytesPerPixel = p.2 * i.width.toNat + p.1 := by
  rw [places, Finset.mem_Ico, firstPlace, Nat.div_eq_iff (bytesPerPixel_pos _)]
  have := bytesPerPixel_pos i.mode
  omega

theorem pairwiseDisjoint_places : (i.pixels : Set (Nat × Nat)).PairwiseDisjoint i.places := by
  intro p hp q hq hne
  refine Finset.disjoint_left.mpr fun n hnp hnq => hne ?_
  obtain ⟨hpRow, hpColumn⟩ := div_mod_of_lt p.2 (mem_pixels.mp hp).1
  obtain ⟨hqRow, hqColumn⟩ := div_mod_of_lt q.2 (mem_pixels.mp hq).1
  have hplace : p.2 * i.width.toNat + p.1 = q.2 * i.width.toNat + q.1 := by
    rw [← mem_places_iff.mp hnp, mem_places_iff.mp hnq]
  exact Prod.ext (by rw [← hpColumn, hplace, hqColumn]) (by rw [← hpRow, hplace, hqRow])

theorem exists_pixel_of_lt {k : Nat} (hk : k < i.width.toNat * i.height.toNat) :
    ∃ p ∈ i.pixels, p.2 * i.width.toNat + p.1 = k := by
  have hw : 0 < i.width.toNat := Nat.pos_of_mul_pos_right (Nat.zero_lt_of_lt hk)
  refine ⟨(k % i.width.toNat, k / i.width.toNat), mem_pixels.mpr ⟨Nat.mod_lt k hw, ?_⟩, ?_⟩
  · exact Nat.div_lt_of_lt_mul hk
  · exact Nat.div_add_mod' k i.width.toNat

theorem biUnion_places :
    i.pixels.biUnion i.places =
      Finset.range (i.width.toNat * i.height.toNat * i.mode.bytesPerPixel) := by
  ext n
  rw [Finset.mem_biUnion, Finset.mem_range]
  constructor
  · rintro ⟨p, hp, hn⟩
    obtain ⟨hx, hy⟩ := mem_pixels.mp hp
    rw [← Nat.div_lt_iff_lt_mul (bytesPerPixel_pos _), mem_places_iff.mp hn]
    exact place_lt hx hy
  · intro hn
    obtain ⟨p, hp, hplace⟩ :=
      exists_pixel_of_lt ((Nat.div_lt_iff_lt_mul (bytesPerPixel_pos _)).mpr hn)
    exact ⟨p, hp, mem_places_iff.mpr hplace.symm⟩

theorem isSome_pixel?_iff (x y : Nat) :
    (i.pixel? x y).isSome ↔ x < i.width.toNat ∧ y < i.height.toNat := by
  constructor
  · intro hs
    by_contra hn
    rw [pixel?_eq_none hn] at hs
    cases hs
  · rintro ⟨hx, hy⟩
    rw [(i.pixel?_eq hx hy).2]
    rfl

theorem sampled (i : Image) : i.Sampled where
  isSome_pixel?_iff := isSome_pixel?_iff
  isSome_intensity?_iff := fun x y => by rw [intensity?, Option.isSome_map, isSome_pixel?_iff]
  pixel := fun x y bytes hb => by
    obtain ⟨hx, hy⟩ := (isSome_pixel?_iff x y).mp (by rw [hb]; rfl)
    obtain ⟨hle, hpixel⟩ := i.pixel?_eq hx hy
    obtain rfl := Option.some.inj (hb.symm.trans hpixel)
    refine ⟨?_, rfl⟩
    rw [Array.length_toList, Array.size_extract]
    omega
  pairwiseDisjoint_places := pairwiseDisjoint_places
  biUnion_places := by rw [biUnion_places, i.size_data]

/-- A buffer is accepted if and only if it has exactly the size of the geometry, in fewer than `2 ^
64` bytes, and, if it has indices, these are in range of the palette. All of an accepted image can
be sampled. If the size is `2 ^ 64` or more, as that of indices never is, the buffer is neither
accepted nor refused. -/
theorem accepted_sampled_iff (w h : UInt32) (mode : PixelMode) (data : Array UInt8)
    (colors : Array Color) :
    ((∃ i, ofPixels? w h mode data = some (.ok i)) ↔
      w ≠ 0 ∧ h ≠ 0 ∧ mode ≠ .palette ∧
        data.size = w.toNat * h.toNat * mode.bytesPerPixel ∧ data.size < 2 ^ 64) ∧
    ((∃ i, ofIndices? w h data colors = some (.ok i)) ↔
      w ≠ 0 ∧ h ≠ 0 ∧ colors ≠ #[] ∧ (∀ b ∈ data, b.toNat < colors.size) ∧
        data.size = w.toNat * h.toNat) ∧
    (∀ i, ofPixels? w h mode data = some (.ok i) →
      i.width = w ∧ i.height = h ∧ i.mode = mode ∧ i.data = data ∧ i.Sampled) ∧
    (∀ i, ofIndices? w h data colors = some (.ok i) →
      i.width = w ∧ i.height = h ∧ i.mode = .palette ∧ i.data = data ∧ i.colors = colors ∧
        i.Sampled) ∧
    (ofPixels? w h mode data = none ↔
      w ≠ 0 ∧ h ≠ 0 ∧ mode ≠ .palette ∧ 2 ^ 64 ≤ w.toNat * h.toNat * mode.bytesPerPixel) ∧
    ofIndices? w h data colors ≠ none := by
  refine ⟨?_, exists_ofIndices?_iff, fun i hi => ?_, fun i hi => ?_, ofPixels?_eq_none_iff,
    ofIndices?_ne_none⟩
  · rw [exists_ofPixels?_iff, expectedSize?_eq_some_iff]
  · obtain ⟨-, rfl, rfl, rfl, rfl, -⟩ := ofPixels?_eq_ok_iff.mp hi
    exact ⟨rfl, rfl, rfl, rfl, i.sampled⟩
  · obtain ⟨rfl, rfl, hm, rfl, rfl⟩ := ofIndices?_eq_ok_iff.mp hi
    exact ⟨rfl, rfl, hm, rfl, rfl, i.sampled⟩

/-- The bytes of `2 ^ 31` rows of `2 ^ 31` pixels of four bytes cannot be counted, and the empty
buffer is not refused. With a row less it is. -/
theorem ofPixels?_uncounted :
    ofPixels? 0x80000000 0x80000000 .rgba #[] = none ∧
      ofPixels? 0x80000000 0x7fffffff .rgba #[] =
        some (.error (.bufferSize 0xfffffffe00000000 0)) := by
  exact ⟨rfl, rfl⟩

end Engraver.Image
