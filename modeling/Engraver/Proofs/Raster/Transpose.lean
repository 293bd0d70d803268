import Mathlib.Data.List.Basic
import Engraver.Proofs.Raster.Pixels
import Engraver.Proofs.Raster.Spans

/-! # Scans by rows and by columns

A scan by columns is a scan by rows of the image with rows and columns exchanged. In lines and
pixel edges the two are the same, since lines, samples and directions are, and only the map into
the scene exchanges `x` and `y`.
-/

namespace Engraver

namespace ScanDirection

def swap (d : ScanDirection) : ScanDirection :=
  ⟨d.left, d.top, d.yMajor, d.xMajor⟩

end ScanDirection

def Segment.swap (g : Segment) : Segment :=
  ⟨g.y, g.x, g.power⟩

namespace Traversal

/-- The axis flipped, bottom and right exchanged. -/
def transpose (t : Traversal) : Traversal where
  bits := (t.bits ^^^ yAxis.bits) &&& ~~~(bottom.union right).bits
    ||| (if t.startsBottom then right.bits else 0) ||| (if t.startsRight then bottom.bits else 0)

theorem flags_transpose (t : Traversal) :
    t.transpose.isYMajor = !t.isYMajor ∧ t.transpose.startsBottom = t.startsRight ∧
      t.transpose.startsRight = t.startsBottom ∧
      t.transpose.isUnidirectional = t.isUnidirectional := by
  have h : ∀ n : Fin 256, let t : Traversal := ⟨.ofFin n⟩
      t.transpose.isYMajor = !t.isYMajor ∧ t.transpose.startsBottom = t.startsRight ∧
        t.transpose.startsRight = t.startsBottom ∧
        t.transpose.isUnidirectional = t.isUnidirectional := by
    decide +kernel
  exact h t.bits.toFin

@[simp] theorem isYMajor_transpose (t : Traversal) : t.transpose.isYMajor = !t.isYMajor :=
  t.flags_transpose.1

@[simp] theorem startsBottom_transpose (t : Traversal) :
    t.transpose.startsBottom = t.startsRight :=
  t.flags_transpose.2.1

@[simp] theorem startsRight_transpose (t : Traversal) :
    t.transpose.startsRight = t.startsBottom :=
  t.flags_transpose.2.2.1

@[simp] theorem isUnidirectional_transpose (t : Traversal) :
    t.transpose.isUnidirectional = t.isUnidirectional :=
  t.flags_transpose.2.2.2

@[simp] theorem linesReversed_transpose (t : Traversal) :
    t.transpose.linesReversed = t.linesReversed := by
  cases h : t.isYMajor <;> simp [linesReversed, h]

@[simp] theorem startsReversed_transpose (t : Traversal) :
    t.transpose.startsReversed = t.startsReversed := by
  cases h : t.isYMajor <;> simp [startsReversed, h]

@[simp] theorem direction_transpose (t : Traversal) : t.transpose.direction = t.direction.swap := by
  simp [direction, ScanDirection.swap]

end Traversal

namespace Image

structure IsTranspose (i j : Image) : Prop where
  width : j.width = i.height
  height : j.height = i.width
  mode : j.mode = i.mode
  colors : j.colors = i.colors
  pixel? : ∀ x y, j.pixel? x y = i.pixel? y x

theorem IsTranspose.intensity {i j : Image} (h : i.IsTranspose j) (x y : Nat) :
    j.intensity x y = i.intensity y x := by
  simp only [Image.intensity, intensity?, h.pixel?, h.mode, h.colors]

def transpose (i : Image) : Image where
  width := i.height
  height := i.width
  mode := i.mode
  data := Array.ofFn fun n : Fin i.data.size =>
    i.gatheredByte i.height.toNat (fun x y => (y, x)) n
  colors := i.colors
  valid := valid_gathered i.valid.height_ne_zero i.valid.width_ne_zero (by
    rw [expectedSize?, expectedSize?, Nat.mul_comm i.height.toNat])

theorem isTranspose_transpose (i : Image) : i.IsTranspose i.transpose := by
  refine ⟨rfl, rfl, rfl, rfl, fun x y => ?_⟩
  by_cases hxy : y < i.width.toNat ∧ x < i.height.toNat
  · have hdata : ∀ n (h : n < i.transpose.data.size), i.transpose.data[n] =
        i.gatheredByte i.transpose.width.toNat (fun x y => (y, x)) n :=
      fun n h => Array.getElem_ofFn h
    exact pixel?_of_gathered hdata rfl hxy.2 hxy.1 hxy
  · rw [pixel?_eq_none hxy, pixel?_eq_none fun h => hxy ⟨h.2, h.1⟩]

end Image

namespace Scan

def transposed (s : Scan) (image : Image) : Scan :=
  { s with image := image, traversal := s.traversal.transpose, offset := s.offset.swap }

variable {s : Scan} {image : Image}

section

variable (h : s.image.IsTranspose image)
include h

theorem lineCount_transposed : (s.transposed image).lineCount = s.lineCount := by
  cases hy : s.traversal.isYMajor <;>
    simp [lineCount, transposed, width, height, hy, h.width, h.height]

theorem lineLength_transposed : (s.transposed image).lineLength = s.lineLength := by
  cases hy : s.traversal.isYMajor <;>
    simp [lineLength, transposed, width, height, hy, h.width, h.height]

theorem lines_transposed : (s.transposed image).lines = s.lines := by
  rw [lines, lines, lineCount_transposed h]
  simp [transposed]

theorem sample_transposed (line pos : Nat) :
    (s.transposed image).sample line pos = s.sample line pos := by
  cases hy : s.traversal.isYMajor <;> simp [sample, transposed, hy, h.intensity]

theorem values_transposed (line : Nat) : (s.transposed image).values line = s.values line := by
  rw [values, values, lineLength_transposed h]
  exact List.map_congr_left fun pos _ => sample_transposed h line pos

theorem agrees_transposed : s.Agrees (s.transposed image) where
  lines := lines_transposed h
  values := values_transposed h
  startsForward := by simp [startsForward, transposed]
  turned := by simp [turned, transposed]
  overscan := rfl

theorem strokes_transposed : (s.transposed image).strokes = s.strokes :=
  (agrees_transposed h).strokes

end

theorem point_transposed (line edge : Nat) (past : Int) :
    (s.transposed image).point line edge past = (s.point line edge past).swap := by
  cases hy : s.traversal.isYMajor <;> simp [point, transposed, major, hy]

theorem place_transposed (k : Stroke) : (s.transposed image).place k = (s.place k).swap := by
  simp only [place, point_transposed]
  rfl

theorem initialPosition_transposed (h : s.image.IsTranspose image) :
    (s.transposed image).initialPosition = s.initialPosition.swap := by
  unfold initialPosition
  rw [(agrees_transposed h).spans, (agrees_transposed h).startsForward]
  cases s.spans with
  | nil => rfl
  | cons p ps => exact point_transposed ..

/-- The scan of the image with rows and columns exchanged, along the other axis and with the sides
of its start exchanged, is the same scan with `x` and `y` exchanged in the scene. Every image can be
so transposed. -/
theorem segments_transposed (s : Scan) :
    (∀ image, s.image.IsTranspose image →
      (s.transposed image).initialPosition = s.initialPosition.swap ∧
      (s.transposed image).segments = s.segments.map Segment.swap ∧
      (s.transposed image).initialDirection = s.initialDirection.swap) ∧
    s.image.IsTranspose s.image.transpose := by
  refine ⟨fun image h => ⟨initialPosition_transposed h, ?_, ?_⟩, s.image.isTranspose_transpose⟩
  · rw [segments, segments, strokes_transposed h, List.map_map]
    exact List.map_congr_left fun k _ => place_transposed k
  · exact s.traversal.direction_transpose

theorem segments_transposed_gray :
    let image : Image := ⟨3, 2, .luma, #[0, 255, 128, 7, 7, 9], #[],
      ⟨by decide, by decide, by decide, nofun, nofun⟩⟩
    let s : Scan := ⟨image, Traversal.bottom.union .right, 2, (1.0, 5.0), 3, by decide⟩
    let t := s.transposed image.transpose
    t.initialPosition = s.initialPosition.swap ∧ t.segments = s.segments.map Segment.swap ∧
      t.initialDirection = s.initialDirection.swap := by
  intro image s t
  exact (segments_transposed s).1 _ (segments_transposed s).2

end Scan
end Engraver
