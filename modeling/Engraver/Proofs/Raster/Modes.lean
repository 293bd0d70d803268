import Engraver.Proofs.Number.Values
import Engraver.Proofs.Raster.Buffers
import Engraver.Proofs.Raster.Spans

/-! # Images in other modes

Palette indices may be replaced by the colors they stand for, colors may be given full alpha, and a
bilevel buffer may be read as a gray one. The intensities stay what they are, and a scan depends on
nothing else of an image but its size.
-/

namespace Engraver

theorem length_flatMap_of_forall {α β : Type} {xs : List α} {f : α → List β} {c : ℕ}
    (hf : ∀ x ∈ xs, (f x).length = c) : (xs.flatMap f).length = xs.length * c := by
  rw [List.length_flatMap, List.map_congr_left hf, List.map_const', List.sum_replicate, smul_eq_mul]

theorem take_drop_flatMap {α β : Type} {xs : List α} {f : α → List β} {c n : ℕ}
    (hf : ∀ x ∈ xs, (f x).length = c) (hn : n < xs.length) :
    ((xs.flatMap f).drop (n * c)).take c = f xs[n] := by
  induction xs generalizing n with
  | nil => cases hn
  | cons x xs ih =>
    have hx : (f x).length = c := hf x List.mem_cons_self
    rw [List.flatMap_cons]
    cases n with
    | zero => rw [Nat.zero_mul, List.drop_zero, List.take_left' hx, List.getElem_cons_zero]
    | succ n =>
      have hdrop : (f x ++ xs.flatMap f).drop ((n + 1) * c) = (xs.flatMap f).drop (n * c) := by
        rw [Nat.succ_mul, Nat.add_comm, ← List.drop_drop, List.drop_left' hx]
      rw [hdrop, ih (fun y hy => hf y (List.mem_cons_of_mem _ hy)) (by simpa using hn),
        List.getElem_cons_succ]

namespace Image

def blocks (i : Image) : List (List UInt8) :=
  let size := i.mode.bytesPerPixel
  (List.range (i.data.size / size)).map fun n =>
    (i.data.extract (n * size) (n * size + size)).toList

/-- The image of this mode whose pixels are those of another, each rewritten. -/
def recode? (i : Image) (mode : PixelMode) (f : List UInt8 → List UInt8) :
    Option (Except ImageError Image) :=
  ofPixels? i.width i.height mode (i.blocks.flatMap f).toArray

def entryBytes (i : Image) : List UInt8 → List UInt8
  | b :: _ => match i.colors[b.toNat]? with
    | some c => [c.r, c.g, c.b]
    | none => []
  | [] => []

def withEntries? (i : Image) : Option (Except ImageError Image) :=
  i.recode? .rgb i.entryBytes

def withFullAlpha? (i : Image) : Option (Except ImageError Image) :=
  i.recode? .rgba (· ++ [255])

def asLuma? (i : Image) : Option (Except ImageError Image) :=
  ofPixels? i.width i.height .luma i.data

section Recoding

variable {i j : Image} {mode : PixelMode} {f : List UInt8 → List UInt8}

theorem length_blocks (i : Image) : i.blocks.length = i.data.size / i.mode.bytesPerPixel := by
  simp [blocks]

theorem length_of_mem_blocks {bytes : List UInt8} (h : bytes ∈ i.blocks) :
    bytes.length = i.mode.bytesPerPixel := by
  obtain ⟨n, hn, rfl⟩ := List.mem_map.mp h
  have hle : (n + 1) * i.mode.bytesPerPixel ≤ i.data.size :=
    (Nat.le_div_iff_mul_le (bytesPerPixel_pos _)).mp (List.mem_range.mp hn)
  rw [Nat.succ_mul] at hle
  rw [Array.length_toList, Array.size_extract]
  omega

theorem mem_data_of_mem_blocks {bytes : List UInt8} (h : bytes ∈ i.blocks) {b : UInt8}
    (hb : b ∈ bytes) : b ∈ i.data := by
  obtain ⟨n, -, rfl⟩ := List.mem_map.mp h
  exact mem_of_mem_extract hb

theorem exists_recode?_iff (hm : mode ≠ .palette)
    (hf : ∀ bytes ∈ i.blocks, (f bytes).length = mode.bytesPerPixel) :
    (∃ j, i.recode? mode f = some (.ok j)) ↔
      i.width.toNat * i.height.toNat * mode.bytesPerPixel < 2 ^ 64 := by
  rw [recode?, exists_ofPixels?_iff, List.size_toArray, length_flatMap_of_forall hf, length_blocks,
    i.size_data, Nat.mul_div_cancel _ (bytesPerPixel_pos _), expectedSize?_eq_some_iff]
  exact ⟨fun h => h.2.2.2.2,
    fun h => ⟨i.valid.width_ne_zero, i.valid.height_ne_zero, hm, rfl, h⟩⟩

theorem pixel?_eq_block {x y : ℕ} (hx : x < i.width.toNat) (hy : y < i.height.toNat) :
    ∃ hn : y * i.width.toNat + x < i.blocks.length,
      i.pixel? x y = some i.blocks[y * i.width.toNat + x] := by
  refine ⟨?_, ?_⟩
  · rw [length_blocks, i.size_data, Nat.mul_div_cancel _ (bytesPerPixel_pos _)]
    exact place_lt hx hy
  · rw [(i.pixel?_eq hx hy).2]
    simp [blocks]

theorem mem_blocks_of_pixel? {x y : ℕ} {bytes : List UInt8} (h : i.pixel? x y = some bytes) :
    bytes ∈ i.blocks := by
  have hxy : x < i.width.toNat ∧ y < i.height.toNat := by
    rw [← isSome_pixel?_iff, h, Option.isSome_some]
  obtain ⟨hn, hp⟩ := pixel?_eq_block hxy.1 hxy.2
  obtain rfl := Option.some.inj (h.symm.trans hp)
  exact List.getElem_mem hn

theorem pixel?_recode? (hf : ∀ bytes ∈ i.blocks, (f bytes).length = mode.bytesPerPixel)
    (hj : i.recode? mode f = some (.ok j)) (x y : ℕ) :
    j.pixel? x y = (i.pixel? x y).map f := by
  obtain ⟨-, hw, hh, rfl, hdata, -⟩ := ofPixels?_eq_ok_iff.mp hj
  by_cases hxy : x < i.width.toNat ∧ y < i.height.toNat
  · obtain ⟨hn, hblock⟩ := pixel?_eq_block hxy.1 hxy.2
    obtain ⟨-, hpixel⟩ := j.pixel?_eq (hw ▸ hxy.1) (hh ▸ hxy.2)
    rw [hpixel, hblock, Option.map_some, ← take_drop_flatMap hf hn, hdata, hw,
      Array.toList_extract, List.extract_eq_take_drop, Nat.add_sub_cancel_left]
  · rw [pixel?_eq_none hxy, pixel?_eq_none (hw ▸ hh ▸ hxy), Option.map_none]

end Recoding

/-- Two images have the same intensities, and so the same scans. -/
structure BurnsAlike (i j : Image) : Prop where
  intensity? : ∀ x y, j.intensity? x y = i.intensity? x y
  initialPosition : ∀ traversal overscan offset step,
    (Scan.ofSettings j traversal overscan offset step).initialPosition =
      (Scan.ofSettings i traversal overscan offset step).initialPosition
  segments : ∀ traversal overscan offset step,
    (Scan.ofSettings j traversal overscan offset step).segments =
      (Scan.ofSettings i traversal overscan offset step).segments

end Image

namespace Scan

variable {s : Scan} {image : Image}

/-- Lines, samples and ways depend on no more of the image than its size and its intensities. -/
theorem agrees_of_intensity? (hw : image.width = s.image.width) (hh : image.height = s.image.height)
    (h : ∀ x y, image.intensity? x y = s.image.intensity? x y) :
    s.Agrees { s with image := image } where
  lines := by simp [lines, lineCount, width, height, hw, hh]
  values := fun line => by
    simp [values, lineLength, width, height, sample, Image.intensity, hw, hh, h]
  startsForward := rfl
  turned := fun _ => rfl
  overscan := rfl

theorem Agrees.initialPosition (h : s.Agrees { s with image := image }) :
    Scan.initialPosition { s with image := image } = s.initialPosition := by
  unfold Scan.initialPosition
  rw [h.spans, h.startsForward]
  cases s.spans <;> rfl

theorem Agrees.segments (h : s.Agrees { s with image := image }) :
    Scan.segments { s with image := image } = s.segments := by
  rw [Scan.segments, Scan.segments, h.strokes]
  rfl

end Scan

namespace Image

variable {i j : Image}

theorem burnsAlike_of_intensity? (hw : j.width = i.width) (hh : j.height = i.height)
    (h : ∀ x y, j.intensity? x y = i.intensity? x y) : i.BurnsAlike j := by
  have ha : ∀ traversal overscan offset step,
      (Scan.ofSettings i traversal overscan offset step).Agrees
        { Scan.ofSettings i traversal overscan offset step with image := j } :=
    fun _ _ _ _ => Scan.agrees_of_intensity? hw hh h
  exact ⟨h, fun _ _ _ _ => (ha ..).initialPosition, fun _ _ _ _ => (ha ..).segments⟩

/-- Rewriting the pixels leaves alone what is burnt if each keeps its intensity. -/
theorem burnsAlike_recode? {mode : PixelMode} {f : List UInt8 → List UInt8}
    (hj : i.recode? mode f = some (.ok j))
    (hf : ∀ bytes ∈ i.blocks, (f bytes).length = mode.bytesPerPixel)
    (hsample : ∀ bytes ∈ i.blocks, mode.sample #[] (f bytes) = i.mode.sample i.colors bytes) :
    i.BurnsAlike j := by
  obtain ⟨-, hw, hh, hm, -, hcolors⟩ := ofPixels?_eq_ok_iff.mp hj
  refine burnsAlike_of_intensity? hw hh fun x y => ?_
  rw [intensity?, intensity?, pixel?_recode? hf hj, hm, hcolors]
  cases hp : i.pixel? x y with
  | none => rfl
  | some bytes => exact congrArg some (hsample bytes (mem_blocks_of_pixel? hp))

theorem entryBytes_of_mem_blocks (hm : i.mode = .palette) {bytes : List UInt8}
    (h : bytes ∈ i.blocks) :
    (i.entryBytes bytes).length = 3 ∧
      PixelMode.rgb.sample #[] (i.entryBytes bytes) = i.mode.sample i.colors bytes := by
  obtain ⟨b, rfl⟩ := List.length_eq_one_iff.mp ((length_of_mem_blocks h).trans (by rw [hm]; rfl))
  have hb := i.valid.index_lt hm b (mem_data_of_mem_blocks h List.mem_cons_self)
  have hc : i.colors[b.toNat]? = some i.colors[b.toNat] := Array.getElem?_eq_getElem hb
  rw [hm]
  simp only [entryBytes, PixelMode.sample, hc]
  exact ⟨rfl, trivial⟩

theorem mul_full_alpha (x : Float) : x * ((255 : UInt8).toFloat / 255.0) = x := by
  have h : (255 : UInt8).toFloat / 255.0 = 1.0 := by decide +kernel
  rw [h, Double.mul_one]

theorem full_alpha_of_mem_blocks (hm : i.mode = .rgb) {bytes : List UInt8} (h : bytes ∈ i.blocks) :
    (bytes ++ [255]).length = 4 ∧
      PixelMode.rgba.sample #[] (bytes ++ [255]) = i.mode.sample i.colors bytes := by
  obtain ⟨r, g, b, rfl⟩ :=
    List.length_eq_three.mp ((length_of_mem_blocks h).trans (by rw [hm]; rfl))
  rw [hm]
  exact ⟨rfl, mul_full_alpha _⟩

theorem exists_withEntries?_iff (hm : i.mode = .palette) :
    (∃ j, i.withEntries? = some (.ok j)) ↔ i.width.toNat * i.height.toNat * 3 < 2 ^ 64 :=
  exists_recode?_iff (by decide) fun _ h => (entryBytes_of_mem_blocks hm h).1

theorem exists_withFullAlpha?_iff (hm : i.mode = .rgb) :
    (∃ j, i.withFullAlpha? = some (.ok j)) ↔ i.width.toNat * i.height.toNat * 4 < 2 ^ 64 :=
  exists_recode?_iff (by decide) fun _ h => (full_alpha_of_mem_blocks hm h).1

/-- Whatever mode the pixels are stored in, the same is burnt: with the entries in place of indices,
with full alpha added, with a bilevel buffer read as a gray one. The one limit is that the bytes of
the new buffer can be counted in 64 bits. -/
theorem mode_changes_burn_alike (i : Image) :
    (i.mode = .palette →
      (∀ j, i.withEntries? = some (.ok j) → i.BurnsAlike j) ∧
        ((∃ j, i.withEntries? = some (.ok j)) ↔ i.width.toNat * i.height.toNat * 3 < 2 ^ 64)) ∧
    (i.mode = .rgb →
      (∀ j, i.withFullAlpha? = some (.ok j) → i.BurnsAlike j) ∧
        ((∃ j, i.withFullAlpha? = some (.ok j)) ↔
          i.width.toNat * i.height.toNat * 4 < 2 ^ 64)) ∧
    (i.mode = .bilevel → ∃ j, i.asLuma? = some (.ok j) ∧ i.BurnsAlike j) := by
  refine ⟨fun hm => ⟨fun j hj => ?_, exists_withEntries?_iff hm⟩,
    fun hm => ⟨fun j hj => ?_, exists_withFullAlpha?_iff hm⟩, fun hm => ?_⟩
  · exact burnsAlike_recode? hj (fun _ h => (entryBytes_of_mem_blocks hm h).1)
      fun _ h => (entryBytes_of_mem_blocks hm h).2
  · exact burnsAlike_recode? hj (fun _ h => (full_alpha_of_mem_blocks hm h).1)
      fun _ h => (full_alpha_of_mem_blocks hm h).2
  · have hsize : expectedSize? i.width i.height .luma = some i.data.size := by
      rw [← i.valid.size_eq, hm]
      rfl
    obtain ⟨j, hj⟩ := exists_ofPixels?_iff.mpr
      ⟨i.valid.width_ne_zero, i.valid.height_ne_zero, by decide, hsize⟩
    refine ⟨j, hj, ?_⟩
    obtain ⟨-, hw, hh, hmode, hdata, -⟩ := ofPixels?_eq_ok_iff.mp hj
    refine burnsAlike_of_intensity? hw hh fun x y => ?_
    have hpixel : j.pixel? x y = i.pixel? x y := by
      simp only [pixel?, hw, hh, hmode, hdata, hm, PixelMode.bytesPerPixel]
    rw [intensity?, intensity?, hpixel, hmode, hm]
    cases i.pixel? x y with
    | none => rfl
    | some bytes => cases bytes <;> rfl

theorem mode_changes_burn_alike_small :
    let indices : Image := ⟨2, 1, .palette, #[1, 0], #[⟨255, 255, 255⟩, ⟨10, 20, 30⟩],
      ⟨by decide, by decide, by decide, nofun, fun _ => by simp⟩⟩
    let colors : Image := ⟨2, 1, .rgb, #[10, 20, 30, 255, 255, 255], #[],
      ⟨by decide, by decide, by decide, nofun, nofun⟩⟩
    let alpha : Image := ⟨2, 1, .rgba, #[10, 20, 30, 255, 255, 255, 255, 255], #[],
      ⟨by decide, by decide, by decide, nofun, nofun⟩⟩
    let bits : Image := ⟨2, 1, .bilevel, #[0, 255], #[],
      ⟨by decide, by decide, by decide, nofun, nofun⟩⟩
    (indices.withEntries? = some (.ok colors) ∧ indices.BurnsAlike colors) ∧
      (colors.withFullAlpha? = some (.ok alpha) ∧ colors.BurnsAlike alpha) ∧
      ∃ gray, bits.asLuma? = some (.ok gray) ∧ bits.BurnsAlike gray := by
  intro indices colors alpha bits
  have hentries : indices.withEntries? = some (.ok colors) := by
    rw [withEntries?, recode?, ofPixels?_eq_ok_iff]
    exact ⟨by decide, rfl, rfl, rfl, by decide, rfl⟩
  have halpha : colors.withFullAlpha? = some (.ok alpha) := by
    rw [withFullAlpha?, recode?, ofPixels?_eq_ok_iff]
    exact ⟨by decide, rfl, rfl, rfl, by decide, rfl⟩
  exact ⟨⟨hentries, ((mode_changes_burn_alike indices).1 rfl).1 _ hentries⟩,
    ⟨halpha, ((mode_changes_burn_alike colors).2.1 rfl).1 _ halpha⟩,
    (mode_changes_burn_alike bits).2.2 rfl⟩

end Image
end Engraver
