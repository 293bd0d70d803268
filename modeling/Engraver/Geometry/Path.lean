import Engraver.Number.Binary

/-! # Outlines

A path is a list of contours of straight and curved pieces. Its points are 32-bit floats in device
units; a transform maps every point, control points included. Curves are flattened into chords at
equal parameters before they are measured. The number of chords grows with the fourth root of the
bend of the curve. Coordinates and chord lengths are 32-bit floats, the sum is a 64-bit one.
-/

namespace Engraver

structure Point where
  x : Float32
  y : Float32

namespace Point

instance : Add Point := ⟨fun p q => ⟨p.x + q.x, p.y + q.y⟩⟩

instance : Sub Point := ⟨fun p q => ⟨p.x - q.x, p.y - q.y⟩⟩

def scale (p : Point) (k : Float32) : Point :=
  ⟨p.x * k, p.y * k⟩

def squaredNorm (p : Point) : Float32 :=
  p.x * p.x + p.y * p.y

def norm (p : Point) : Float32 :=
  p.squaredNorm.sqrt

end Point

structure Transform where
  m11 : Float32
  m12 : Float32
  m21 : Float32
  m22 : Float32
  m31 : Float32
  m32 : Float32

namespace Transform

def identity : Transform :=
  ⟨1, 0, 0, 1, 0, 0⟩

def apply (t : Transform) (p : Point) : Point :=
  ⟨p.x * t.m11 + p.y * t.m21 + t.m31, p.x * t.m12 + p.y * t.m22 + t.m32⟩

def offset (t : Transform) : Float × Float :=
  (t.m31.toFloat, t.m32.toFloat)

end Transform

/-- A piece of an outline, from where the piece before it ends. -/
inductive Curve where
  | line (stop : Point)
  | quadratic (control stop : Point)
  | cubic (control₁ control₂ stop : Point)

namespace Curve

def map (f : Point → Point) : Curve → Curve
  | line stop => line (f stop)
  | quadratic control stop => quadratic (f control) (f stop)
  | cubic control₁ control₂ stop => cubic (f control₁) (f control₂) (f stop)

end Curve

structure Contour where
  start : Point
  curves : List Curve
  closed : Bool

namespace Contour

def map (f : Point → Point) (c : Contour) : Contour :=
  ⟨f c.start, c.curves.map (·.map f), c.closed⟩

end Contour

abbrev Path := List Contour

namespace Path

def polyline (points : List Point) (closed : Bool) : Path :=
  match points with
  | [] => []
  | p :: ps => [⟨p, ps.map .line, closed⟩]

def transformed (t : Transform) (path : Path) : Path :=
  path.map (·.map t.apply)

def firstPoint? (path : Path) : Option Point :=
  path.head?.map (·.start)

theorem firstPoint?_transformed (t : Transform) (path : Path) :
    (transformed t path).firstPoint? = path.firstPoint?.map t.apply := by
  cases path <;> rfl

end Path

def flattenTolerance : Float32 := 0.01

namespace Flatten

def weight : Float32 :=
  1 / (8 * flattenTolerance)

/-- The fourth root of the bend, rounded up, as a float. -/
def root (bend : Float32) : Float32 :=
  let r := bend.sqrt.sqrt
  match Binary.ofFloat r.toFloat with
  | .finite false m q =>
    let whole := Binary.whole m q
    let up := if (Binary.finite false m q).isInteger then whole else whole + 1
    Float32.ofNat (max 1 up)
  | .infinite false => r
  | _ => 1

/-- How many chords a bend asks for: the least number up to 24 whose fourth power reaches it,
else its root. -/
def divisions (bend : Float32) : Float32 :=
  match (List.range 24).find? fun (i : Nat) => bend ≤ Float32.ofNat (Nat.pow (i + 1) 4) with
  | some i => Float32.ofNat (i + 1)
  | none => root bend

def chordCount (divisions : Float32) : Nat :=
  match (Binary.ofFloat divisions.toFloat).trunc? with
  | some n => if IntRange.uint32.contains n then n.toNat else 1
  | none => 1

def quadraticBend (source control stop : Point) : Float32 :=
  let l := (source - control.scale 2 + stop).scale 2
  l.squaredNorm * weight * weight

def quadraticAt (source control stop : Point) (t : Float32) : Point :=
  let a₁ := (control - source).scale 2
  let a₂ := source + stop - control.scale 2
  source + a₁.scale t + a₂.scale (t * t)

/-- The greater of two floats; one that is no number does not count. -/
def greater (x y : Float32) : Float32 :=
  if x.isNaN then y else if y.isNaN then x else if x < y then y else x

def cubicBend (source control₁ control₂ stop : Point) : Float32 :=
  let v₁ := (source - control₁.scale 2 + control₂).scale 6
  let v₂ := (control₁ - control₂.scale 2 + stop).scale 6
  greater v₁.squaredNorm v₂.squaredNorm * weight * weight

def cubicAt (source control₁ control₂ stop : Point) (t : Float32) : Point :=
  let a₁ := (control₁ - source).scale 3
  let a₂ := source.scale 3 - control₁.scale 6 + control₂.scale 3
  let a₃ := stop - source + (control₁ - control₂).scale 3
  source + a₁.scale t + a₂.scale (t * t) + a₃.scale (t * t * t)

end Flatten

structure Walk where
  place : Point
  length : Float

namespace Walk

def go (w : Walk) (p : Point) : Walk :=
  ⟨p, w.length + (p - w.place).norm.toFloat⟩

def along (curve : Float32 → Point) (step : Float32) : Nat → Float32 → Walk → Walk
  | 0, _, w => w
  | n + 1, t, w => along curve step n (t + step) (w.go (curve t))

/-- Goes along a curve in chords: to its point at each parameter, then to its end exactly. -/
def bend (w : Walk) (bend : Float32) (curve : Float32 → Point) (stop : Point) : Walk :=
  let n := Flatten.divisions bend
  let step := 1 / n
  (along curve step (Flatten.chordCount n - 1) step w).go stop

def follow (w : Walk) : Curve → Walk
  | .line stop => w.go stop
  | .quadratic control stop =>
    w.bend (Flatten.quadraticBend w.place control stop)
      (Flatten.quadraticAt w.place control stop) stop
  | .cubic control₁ control₂ stop =>
    w.bend (Flatten.cubicBend w.place control₁ control₂ stop)
      (Flatten.cubicAt w.place control₁ control₂ stop) stop

def around (length : Float) (c : Contour) : Float :=
  let w := c.curves.foldl follow ⟨c.start, length⟩
  (if c.closed then w.go c.start else w).length

end Walk

namespace Path

def measure (path : Path) : Float :=
  path.foldl Walk.around 0.0

def length? (path : Path) : Option Float :=
  let l := path.measure
  if l.isFinite then some l else none

end Path
end Engraver
