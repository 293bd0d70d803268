import Engraver.Command
import Engraver.Grbl.LineReader
import Engraver.Units

/-! # Executing blocks

A block changes the modes that hold for later blocks and gives commands for the machine, in the
order feed, `G`, `M`, axes. Arcs are moved straight to their end.
-/

namespace Engraver

inductive MotionMode where
  | rapid
  | linear
  | arcClockwise
  | arcCounterclockwise
  deriving DecidableEq, Repr

namespace MotionMode

def name : MotionMode → String
  | rapid => "Rapid"
  | linear => "Linear"
  | arcClockwise => "ArcCw"
  | arcCounterclockwise => "ArcCcw"

end MotionMode

structure AxisSigns where
  x : Float
  y : Float

structure Modes where
  units : MeasurementSystem
  /-- machine speed for a feed of one -/
  feedScale : Float
  motion : MotionMode

namespace Modes

def feedScaleFor (scale : Float) : Float :=
  scale / milsPerMillimetre * (1.0 / 60.0)

def initial : Modes where
  units := .metric
  feedScale := feedScaleFor milsPerMillimetre
  motion := .rapid

def scale (m : Modes) : Float :=
  m.units.milsPerUnit

def withUnits (m : Modes) (u : MeasurementSystem) : Modes :=
  { m with units := u, feedScale := feedScaleFor u.milsPerUnit }

def withMotion (m : Modes) (k : MotionMode) : Modes :=
  { m with motion := k }

def wordCommand (f : Float → Command) (v : Option Float) : List Command :=
  (v.map f).toList

/-- The pause of a `G4` block: `P` in milliseconds, `S` in seconds. -/
def dwell (b : Block) : List Command :=
  [.modeDefault, .waitBufferEmpty] ++ wordCommand (fun p => .wait (p / 1000.0)) (b.get? 'p')
    ++ wordCommand .wait (b.get? 's')

def applyG (m : Modes) : Int → Modes
  | 0 => m.withMotion .rapid
  | 1 => m.withMotion .linear
  | 2 => m.withMotion .arcClockwise
  | 3 => m.withMotion .arcCounterclockwise
  | 20 | 70 => m.withUnits .imperial
  | 21 | 71 => m.withUnits .metric
  | 94 => { m with feedScale := feedScaleFor m.scale }
  | _ => m

def gCommands (b : Block) : Int → List Command
  | 4 => dwell b
  | 28 => [.modeDefault, .waitBufferEmpty, .home]
  | 90 => [.setAbsolute]
  | 91 => [.setIncremental]
  | _ => []

def mCommands : Int → List Command
  | 3 | 4 => [.laserOn]
  | 5 => [.laserOff]
  | _ => []

/-- A coordinate for the machine; an axis that is not named counts as zero. -/
def coordinate (scale sign : Float) : Option Float → Float
  | some v => v * scale * sign
  | none => 0.0

def approach (m : Modes) : List Command :=
  match m.motion with
  | .rapid => [.laserOff, .modeDefault]
  | _ => [.modeCompact]

def moveCommands (signs : AxisSigns) (m : Modes) (b : Block) : List Command :=
  if b.contains 'x' || b.contains 'y' then
    let x := coordinate m.scale signs.x (b.get? 'x')
    let y := coordinate m.scale signs.y (b.get? 'y')
    m.approach ++ [.move x y]
  else []

def after (m : Modes) (b : Block) : Modes :=
  match b.code? 'g' with
  | some g => m.applyG g
  | none => m

/-- The commands of a block. A program end, `M30`, drops what would follow. -/
def commands (signs : AxisSigns) (m : Modes) (b : Block) : List Command :=
  let feed := wordCommand (fun f => .setSpeed (m.feedScale * f)) (b.get? 'f')
  let general := ((b.code? 'g').map (gCommands b)).getD []
  let rest := match b.code? 'm' with
    | some 30 => []
    | some c => mCommands c ++ moveCommands signs (m.after b) b
    | none => moveCommands signs (m.after b) b
  feed ++ general ++ rest

end Modes
end Engraver
