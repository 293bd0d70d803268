import Engraver.Geometry.Path
import Engraver.Number.FloatText
import Engraver.Raster.Scan

/-! # Laser commands

The instructions that operations and streamed code give to a machine, and the signals that reach
it ahead of them.
-/

namespace Engraver

inductive Command where
  | modeRapid
  | modeProgram
  | modeCompact
  | modeDefault
  | setAbsolute
  | setIncremental
  /-- millimetres in a second -/
  | setSpeed (v : Float)
  /-- from 0 to 1000 -/
  | setPower (v : Float)
  | setStep (n : Int)
  | setDRatio (v : Option Float)
  | setAcceleration (n : Option Int)
  | setDirection (d : ScanDirection)
  | move (x y : Float)
  | plot (outline : Path)
  | raster (scan : Scan)
  | laserOn
  | laserOff
  | home
  | wait (v : Float)
  | waitBufferEmpty
  | reset

namespace Command

def name : Command → String
  | modeRapid => "mode_rapid"
  | modeProgram => "mode_program"
  | modeCompact => "mode_compact"
  | modeDefault => "mode_default"
  | setAbsolute => "set_absolute"
  | setIncremental => "set_incremental"
  | setSpeed _ => "set_speed"
  | setPower _ => "set_power"
  | setStep _ => "set_step"
  | setDRatio _ => "set_d_ratio"
  | setAcceleration _ => "set_acceleration"
  | setDirection _ => "set_direction"
  | move .. => "move"
  | plot _ => "plot"
  | raster _ => "raster"
  | laserOn => "laser_on"
  | laserOff => "laser_off"
  | home => "home"
  | wait _ => "wait"
  | waitBufferEmpty => "wait_buffer_empty"
  | reset => "reset"

def plain : List Command :=
  [modeRapid, modeProgram, modeCompact, modeDefault, setAbsolute, setIncremental, laserOn, laserOff,
    home, waitBufferEmpty, reset]

def ofName? (s : String) : Option Command :=
  plain.find? (·.name = s)

def optional {α : Type} (render : α → String) : Option α → String
  | none => "None"
  | some a => "Some(" ++ render a ++ ")"

def arguments? : Command → Option String
  | setSpeed v => some (plainFloat v)
  | setPower v => some (plainFloat v)
  | wait v => some (plainFloat v)
  | setStep n => some (toString n)
  | setDRatio v => some (optional FloatText.setting.render v)
  | setAcceleration n => some (optional toString n)
  | move x y => some (plainFloat x ++ ", " ++ plainFloat y)
  | setDirection d => some s!"top={d.top}, left={d.left}, x={d.xMajor}, y={d.yMajor}"
  | raster s => some s!"{s.image.width}x{s.image.height}, step={s.step}"
  | _ => none

def render (c : Command) : String :=
  match c.arguments? with
  | some args => c.name ++ "(" ++ args ++ ")"
  | none => c.name

end Command

inductive Signal where
  | pause
  | resume
  /-- drops everything queued; also the emergency stop -/
  | reset
  deriving DecidableEq, Repr

namespace Signal

def name : Signal → String
  | pause => "pause"
  | resume => "resume"
  | reset => "reset"

def ofName? : String → Option Signal
  | "pause" => some pause
  | "resume" => some resume
  | "reset" => some reset
  | _ => none

end Signal
end Engraver
