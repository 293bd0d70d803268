import Engraver.Raster.Image
import Engraver.Raster.Traversal

/-! # Raster scans

A scan visits the lines of an image that have something to burn. On each it sweeps from the
edge of the first burning pixel to the edge of the last, a stroke per run of equal intensity,
then runs out over the end. Strokes are counted in pixel edges and lines; `Scan.place` maps them
into the scene.
-/

namespace Engraver

structure Scan where
  image : Image
  traversal : Traversal
  /-- how far a sweep runs on over its end -/
  overscan : Nat
  offset : Float × Float
  step : Nat
  step_pos : 0 < step

structure Stroke where
  line : Nat
  edge : Nat
  /-- scene units past the edge, along the axis of the line -/
  past : Int
  power : Float

structure Segment where
  x : Float
  y : Float
  power : Float

namespace Segment

def isBurning (s : Segment) : Bool :=
  0.0 < s.power

end Segment

namespace Scan

def ofSettings (image : Image) (traversal : Traversal) (overscan : Int) (offset : Float × Float)
    (step : Int) : Scan where
  image := image
  traversal := traversal
  overscan := overscan.toNat
  offset := offset
  step := max 1 step.toNat
  step_pos := by omega

def width (s : Scan) : Nat :=
  s.image.width.toNat

def height (s : Scan) : Nat :=
  s.image.height.toNat

def lineCount (s : Scan) : Nat :=
  if s.traversal.isYMajor then s.width else s.height

def lineLength (s : Scan) : Nat :=
  if s.traversal.isYMajor then s.height else s.width

def lines (s : Scan) : List Nat :=
  let all := List.range s.lineCount
  if s.traversal.linesReversed then all.reverse else all

def sample (s : Scan) (line pos : Nat) : Float :=
  if s.traversal.isYMajor then s.image.intensity line pos else s.image.intensity pos line

def values (s : Scan) (line : Nat) : List Float :=
  (List.range s.lineLength).map (s.sample line)

end Scan

structure Run where
  length : Nat
  power : Float

namespace Run

/-- Puts a pixel in front: into the first run if it has the run's power, else as its own. -/
def push (v : Float) : List Run → List Run
  | [] => [⟨1, v⟩]
  | r :: rs => if v == r.power then ⟨r.length + 1, v⟩ :: rs else ⟨1, v⟩ :: r :: rs

/-- The maximal runs of a line; each keeps its first value. -/
def ofValues (vs : List Float) : List Run :=
  vs.foldr push []

def total : List Run → Nat
  | [] => 0
  | r :: rs => r.length + total rs

@[simp] theorem total_nil : total [] = 0 := rfl

@[simp] theorem total_cons (r : Run) (rs : List Run) : total (r :: rs) = r.length + total rs := rfl

theorem total_push (v : Float) (rs : List Run) : total (push v rs) = total rs + 1 := by
  cases rs with
  | nil => rfl
  | cons r rs =>
    simp only [push]
    split <;> simp only [total_cons] <;> omega

theorem total_ofValues (vs : List Float) : total (ofValues vs) = vs.length := by
  induction vs with
  | nil => rfl
  | cons v vs ih => rw [ofValues, List.foldr_cons, total_push, ← ofValues, ih, List.length_cons]

end Run

structure Span where
  line : Nat
  first : Nat
  values : List Float

namespace Span

def burns (v : Float) : Bool :=
  0.0 < v

def ofLine? (line : Nat) (vs : List Float) : Option Span :=
  let kept := ((vs.dropWhile (!burns ·)).reverse.dropWhile (!burns ·)).reverse
  if kept.isEmpty then none else some ⟨line, (vs.takeWhile (!burns ·)).length, kept⟩

def last (s : Span) : Nat :=
  s.first + s.values.length

def start (s : Span) (forward : Bool) : Nat :=
  if forward then s.first else s.last

def stop (s : Span) (forward : Bool) : Nat :=
  if forward then s.last else s.first

def strokesFrom (line : Nat) (forward : Bool) : Nat → List Run → List Stroke
  | _, [] => []
  | edge, r :: rs =>
    let next := if forward then edge + r.length else edge - r.length
    ⟨line, next, 0, r.power⟩ :: strokesFrom line forward next rs

def sweep (s : Span) (forward : Bool) : List Stroke :=
  strokesFrom s.line forward (s.start forward)
    (Run.ofValues (if forward then s.values else s.values.reverse))

def runOut (s : Span) (overscan : Nat) (forward : Bool) : List Stroke :=
  if overscan = 0 then []
  else [⟨s.line, s.stop forward, if forward then overscan else -overscan, 0.0⟩]

def travel (s : Span) (forward : Bool) : Stroke :=
  ⟨s.line, s.start forward, 0, 0.0⟩

end Span

namespace Scan

def span? (s : Scan) (line : Nat) : Option Span :=
  Span.ofLine? line (s.values line)

def spans (s : Scan) : List Span :=
  s.lines.filterMap s.span?

def startsForward (s : Scan) : Bool :=
  !s.traversal.startsReversed

def turned (s : Scan) (forward : Bool) : Bool :=
  if s.traversal.isUnidirectional then forward else !forward

/-- The strokes over the spans, each but the first after a travel to its start. -/
def strokesOver (s : Scan) : (started forward : Bool) → List Span → List Stroke
  | _, _, [] => []
  | started, forward, p :: ps =>
    (if started then [p.travel forward] else [])
      ++ p.sweep forward ++ p.runOut s.overscan forward
      ++ strokesOver s true (s.turned forward) ps

def strokes (s : Scan) : List Stroke :=
  s.strokesOver false s.startsForward s.spans

def major (s : Scan) (edge : Nat) (past : Int) : Float :=
  let m := Float.ofNat edge * Float.ofNat s.step
  if past = 0 then m else m + Float.ofInt past

@[simp] theorem major_zero (s : Scan) (edge : Nat) :
    s.major edge 0 = Float.ofNat edge * Float.ofNat s.step := rfl

theorem major_of_ne_zero (s : Scan) (edge : Nat) {past : Int} (h : past ≠ 0) :
    s.major edge past = Float.ofNat edge * Float.ofNat s.step + Float.ofInt past :=
  if_neg h

/-- The scene point of an edge or a place past it. -/
def point (s : Scan) (line edge : Nat) (past : Int) : Float × Float :=
  let major := s.major edge past
  let minor := Float.ofNat line * Float.ofNat s.step
  if s.traversal.isYMajor then (minor + s.offset.1, major + s.offset.2)
  else (major + s.offset.1, minor + s.offset.2)

theorem point_of_rows {s : Scan} (h : s.traversal.isYMajor = false) (line edge : Nat)
    (past : Int) :
    s.point line edge past =
      (s.major edge past + s.offset.1, Float.ofNat line * Float.ofNat s.step + s.offset.2) := by
  simp [point, h]

theorem point_of_columns {s : Scan} (h : s.traversal.isYMajor = true) (line edge : Nat)
    (past : Int) :
    s.point line edge past =
      (Float.ofNat line * Float.ofNat s.step + s.offset.1, s.major edge past + s.offset.2) := by
  simp [point, h]

def place (s : Scan) (k : Stroke) : Segment :=
  let (x, y) := s.point k.line k.edge k.past
  ⟨x, y, k.power⟩

@[simp] theorem place_xy (s : Scan) (k : Stroke) :
    ((s.place k).x, (s.place k).y) = s.point k.line k.edge k.past := rfl

@[simp] theorem place_power (s : Scan) (k : Stroke) : (s.place k).power = k.power := rfl

def segments (s : Scan) : List Segment :=
  s.strokes.map s.place

/-- Where the first sweep begins; without anything to burn, the offset. -/
def initialPosition (s : Scan) : Float × Float :=
  match s.spans with
  | [] => s.offset
  | p :: _ => s.point p.line (p.start s.startsForward) 0

def initialDirection (s : Scan) : ScanDirection :=
  s.traversal.direction

end Scan
end Engraver
