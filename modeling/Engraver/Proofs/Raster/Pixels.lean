import Mathlib.Tactic.Ring
import Engraver.Raster.Image

/-! # Pixels of a buffer

An image holds its pixels in row-major order. So an image may be gathered from the pixels of
another: it has at each place the pixel of a source place.
-/

namespace Engraver.Image

theorem bytesPerPixel_pos (m : PixelMode) : 0 < m.bytesPerPixel := by
  cases m <;> decide

theorem mem_of_mem_extract {α : Type} {xs : Array α} {start stop : Nat} {x : α}
    (h : x ∈ (xs.extract start stop).toList) : x ∈ xs := by
  rw [Array.toList_extract, List.extract_eq_take_drop] at h
  exact Array.mem_def.mpr (List.mem_of_mem_drop (List.mem_of_mem_take h))

theorem mem_data_of_pixel? {i : Image} {x y : Nat} {bytes : List UInt8}
    (h : i.pixel? x y = some bytes) {b : UInt8} (hb : b ∈ bytes) : b ∈ i.data := by
  unfold Image.pixel? at h
  split at h
  · dsimp only at h
    split at h
    · obtain rfl := Option.some.inj h
      exact mem_of_mem_extract hb
    · cases h
  · cases h

theorem pixel?_eq_none {i : Image} {x y : Nat} (h : ¬ (x < i.width.toNat ∧ y < i.height.toNat)) :
    i.pixel? x y = none :=
  if_neg h

theorem expectedSize?_eq_some_iff {w h : UInt32} {m : PixelMode} {n : Nat} :
    expectedSize? w h m = some n ↔ n = w.toNat * h.toNat * m.bytesPerPixel ∧ n < 2 ^ 64 := by
  rw [expectedSize?, Option.ite_none_right_eq_some, Option.some.injEq]
  constructor
  · rintro ⟨hlt, rfl⟩
    exact ⟨rfl, hlt⟩
  · rintro ⟨rfl, hlt⟩
    exact ⟨hlt, rfl⟩

theorem expectedSize?_eq_none_iff {w h : UInt32} {m : PixelMode} :
    expectedSize? w h m = none ↔ 2 ^ 64 ≤ w.toNat * h.toNat * m.bytesPerPixel := by
  rw [expectedSize?, ite_eq_right_iff, ← Nat.not_lt]
  exact forall_congr' fun _ => iff_of_false nofun id

theorem size_data (i : Image) :
    i.data.size = i.width.toNat * i.height.toNat * i.mode.bytesPerPixel :=
  (expectedSize?_eq_some_iff.mp i.valid.size_eq).1

theorem place_lt {w h x y : Nat} (hx : x < w) (hy : y < h) : y * w + x < w * h := by
  calc y * w + x < y * w + w := by omega
    _ = (y + 1) * w := by ring
    _ ≤ h * w := Nat.mul_le_mul_right w hy
    _ = w * h := Nat.mul_comm h w

theorem pixel?_eq (i : Image) {x y : Nat} (hx : x < i.width.toNat) (hy : y < i.height.toNat) :
    let size := i.mode.bytesPerPixel
    let start := (y * i.width.toNat + x) * size
    start + size ≤ i.data.size ∧
      i.pixel? x y = some (i.data.extract start (start + size)).toList := by
  intro size start
  have hle : start + size ≤ i.data.size := by
    rw [i.size_data]
    calc start + size = (y * i.width.toNat + x + 1) * size := by ring
      _ ≤ i.width.toNat * i.height.toNat * size := Nat.mul_le_mul_right size (place_lt hx hy)
  refine ⟨hle, ?_⟩
  unfold Image.pixel?
  dsimp only
  rw [if_pos ⟨hx, hy⟩, if_pos hle]

theorem div_mod_of_lt {b k : Nat} (a : Nat) (hk : k < b) :
    (a * b + k) / b = a ∧ (a * b + k) % b = k := by
  have hb : 0 < b := by omega
  constructor
  · rw [Nat.mul_comm, Nat.mul_add_div hb, Nat.div_eq_of_lt hk, Nat.add_zero]
  · rw [Nat.mul_comm, Nat.mul_add_mod, Nat.mod_eq_of_lt hk]

variable {i j : Image} {source : Nat → Nat → Nat × Nat}

/-- The byte at a place of a buffer with rows of `width` pixels whose pixel in column `x` of row `y`
is that of the image at `source x y`. -/
def gatheredByte (i : Image) (width : Nat) (source : Nat → Nat → Nat × Nat) (n : Nat) : UInt8 :=
  let place := n / i.mode.bytesPerPixel
  let p := source (place % width) (place / width)
  ((i.pixel? p.1 p.2).bind (·[n % i.mode.bytesPerPixel]?)).getD 0

theorem gatheredByte_lt (hm : i.mode = .palette) (width n : Nat) :
    (i.gatheredByte width source n).toNat < i.colors.size := by
  have hpos : (0 : UInt8).toNat < i.colors.size :=
    Array.size_pos_iff.mpr (i.valid.colors_ne_empty hm)
  unfold gatheredByte
  dsimp only
  generalize source _ _ = p
  cases hp : i.pixel? p.1 p.2 with
  | none => exact hpos
  | some bytes =>
    rw [Option.bind_some]
    cases hb : bytes[n % i.mode.bytesPerPixel]? with
    | none => exact hpos
    | some b => exact i.valid.index_lt hm b (mem_data_of_pixel? hp (List.mem_of_getElem? hb))

theorem valid_gathered {width height : UInt32} (hw : width ≠ 0) (hh : height ≠ 0)
    (hsize : expectedSize? width height i.mode = expectedSize? i.width i.height i.mode) :
    Valid width height i.mode
      (Array.ofFn fun n : Fin i.data.size => i.gatheredByte width.toNat source n) i.colors where
  width_ne_zero := hw
  height_ne_zero := hh
  size_eq := by rw [Array.size_ofFn, hsize, i.valid.size_eq]
  colors_ne_empty := i.valid.colors_ne_empty
  index_lt := fun hm b hb => by
    obtain ⟨n, rfl⟩ := Array.mem_ofFn.mp hb
    exact gatheredByte_lt hm _ n

theorem gatheredByte_eq {width x y k : Nat} {bytes : List UInt8} (hx : x < width)
    (hk : k < i.mode.bytesPerPixel)
    (hb : i.pixel? (source x y).1 (source x y).2 = some bytes) :
    i.gatheredByte width source ((y * width + x) * i.mode.bytesPerPixel + k) =
      bytes[k]?.getD 0 := by
  obtain ⟨hplace, hbyte⟩ := div_mod_of_lt (y * width + x) hk
  obtain ⟨hrow, hcolumn⟩ := div_mod_of_lt y hx
  rw [gatheredByte, hplace, hbyte, hrow, hcolumn, hb]
  rfl

/-- A gathered image has the pixels of its source. -/
theorem pixel?_of_gathered
    (hdata : ∀ n (h : n < j.data.size), j.data[n] = i.gatheredByte j.width.toNat source n)
    (hmode : j.mode = i.mode)
    {x y : Nat} (hx : x < j.width.toNat) (hy : y < j.height.toNat)
    (hsource : (source x y).1 < i.width.toNat ∧ (source x y).2 < i.height.toNat) :
    j.pixel? x y = i.pixel? (source x y).1 (source x y).2 := by
  obtain ⟨hle, hpixel⟩ := i.pixel?_eq hsource.1 hsource.2
  obtain ⟨hle', hpixel'⟩ := j.pixel?_eq hx hy
  rw [hmode] at hle' hpixel'
  rw [hpixel, hpixel']
  congr 1
  refine List.ext_getElem (by simp; omega) fun k hk hk' => ?_
  have hsize : k < i.mode.bytesPerPixel := by
    simp at hk'
    omega
  have hbyte := gatheredByte_eq hx hsize hpixel
  rw [List.getElem?_eq_getElem hk'] at hbyte
  simpa [hdata] using hbyte

end Engraver.Image
