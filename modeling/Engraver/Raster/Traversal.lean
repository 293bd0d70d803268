import Engraver.Properties

/-! # Scan order

A traversal says along which axis scan lines run, at which corner a scan starts and whether
every line is scanned in one direction. It is kept as four bits.
-/

namespace Engraver

inductive RasterDirection where
  | topToBottom
  | bottomToTop
  | rightToLeft
  | leftToRight
  deriving DecidableEq, Repr

namespace RasterDirection

def index : RasterDirection → Int
  | topToBottom => 0
  | bottomToTop => 1
  | rightToLeft => 2
  | leftToRight => 3

def ofIndex? : Int → Option RasterDirection
  | 0 => some topToBottom
  | 1 => some bottomToTop
  | 2 => some rightToLeft
  | 3 => some leftToRight
  | _ => none

def ofIndex (n : Int) : Except PropertyError RasterDirection :=
  match ofIndex? n with
  | some d => .ok d
  | none => .error (.outOfRange "raster_direction" (toString n))

end RasterDirection

/-- Where the head travels: toward the top, toward the left, along which axis. -/
structure ScanDirection where
  top : Bool
  left : Bool
  xMajor : Bool
  yMajor : Bool
  deriving DecidableEq, Repr

/-- Scan flags; bits above the fourth have no meaning. -/
structure Traversal where
  bits : UInt8
  deriving DecidableEq, Repr

namespace Traversal

def yAxis : Traversal := ⟨1⟩
def bottom : Traversal := ⟨2⟩
def right : Traversal := ⟨4⟩
def oneWay : Traversal := ⟨8⟩

def default : Traversal := ⟨0⟩

instance : Inhabited Traversal := ⟨default⟩

def ofBits (bits : UInt8) : Traversal :=
  ⟨bits &&& 15⟩

def union (s t : Traversal) : Traversal :=
  ⟨s.bits ||| t.bits⟩

def contains (s t : Traversal) : Bool :=
  s.bits &&& t.bits == t.bits

def ofDirection (d : RasterDirection) (unidirectional : Bool) : Traversal :=
  let base := match d with
    | .topToBottom => default
    | .bottomToTop => bottom
    | .rightToLeft => yAxis.union right
    | .leftToRight => yAxis
  if unidirectional then base.union oneWay else base

def isYMajor (t : Traversal) : Bool :=
  t.contains yAxis

def startsBottom (t : Traversal) : Bool :=
  t.contains bottom

def startsRight (t : Traversal) : Bool :=
  t.contains right

def isUnidirectional (t : Traversal) : Bool :=
  t.contains oneWay

def direction (t : Traversal) : ScanDirection where
  top := t.startsBottom
  left := t.startsRight
  xMajor := !t.isYMajor
  yMajor := t.isYMajor

def linesReversed (t : Traversal) : Bool :=
  if t.isYMajor then t.startsRight else t.startsBottom

def startsReversed (t : Traversal) : Bool :=
  if t.isYMajor then t.startsBottom else t.startsRight

end Traversal
end Engraver
