import Engraver.Machine
import Engraver.Properties
import Engraver.Raster.Traversal

/-! # Operation settings

The kinds of laser operation, the settings that they share and those of raster operations.
Properties are read into an update of the settings once. Applying it and comparing settings with it
take each field the same way; a field that cannot be read leaves its setting alone. Only an overscan
that cannot be read counts as the default overscan.
-/

namespace Engraver

inductive JobError where
  | unknownType (text : String)
  | notFound (index size : Nat)
  | emptyQueue
  deriving DecidableEq, Repr

namespace JobError

def message : JobError → String
  | unknownType text => s!"Unknown operation type: {text}"
  | notFound index size => s!"No job at queue position {index} (queue holds {size})"
  | emptyQueue => "Spooler queue is empty"

end JobError

inductive OperationType where
  | cut
  | engrave
  | raster
  deriving DecidableEq, Repr

namespace OperationType

def name : OperationType → String
  | cut => "Cut"
  | engrave => "Engrave"
  | raster => "Raster"

def ofName? : String → Option OperationType
  | "Cut" => some cut
  | "Engrave" => some engrave
  | "Raster" => some raster
  | _ => none

def defaultSpeed : OperationType → Float
  | cut => 10.0
  | engrave => 35.0
  | raster => 150.0

/-- Reads a type by name, in any case and with blanks around it. The names have none of the
letters that a character outside ASCII becomes in lower case. -/
def parse (s : String) : Except JobError OperationType :=
  match String.ofList (Text.lower (Text.trim s.toList)) with
  | "cut" => .ok cut
  | "engrave" => .ok engrave
  | "raster" => .ok raster
  | _ => .error (.unknownType s)

end OperationType

structure LaserSettings where
  speed : Float
  power : Float
  /-- `dratio` counts instead of the default of the device -/
  dratioCustom : Bool
  dratio : Option Float
  accelerationCustom : Bool
  acceleration : Option Int

namespace LaserSettings

def default (t : OperationType) : LaserSettings where
  speed := t.defaultSpeed
  power := Machine.initialPower
  dratioCustom := false
  dratio := none
  accelerationCustom := false
  acceleration := none

def effectiveDRatio (s : LaserSettings) : Option Float :=
  if s.dratioCustom then s.dratio else none

def effectiveAcceleration (s : LaserSettings) : Option Int :=
  if s.accelerationCustom then s.acceleration else none

end LaserSettings

structure RasterSettings where
  step : Int
  direction : RasterDirection
  unidirectional : Bool
  overscan : Int
  deriving DecidableEq, Repr

namespace RasterSettings

def defaultOverscan : Int := 20

def default : RasterSettings where
  step := 1
  direction := .topToBottom
  unidirectional := false
  overscan := defaultOverscan

def traversal (s : RasterSettings) : Traversal :=
  .ofDirection s.direction s.unidirectional

end RasterSettings

inductive OperationKind where
  | cut
  | engrave
  | raster (s : RasterSettings)
  deriving DecidableEq, Repr

namespace OperationKind

def default : OperationType → OperationKind
  | .cut => cut
  | .engrave => engrave
  | .raster => raster .default

def type : OperationKind → OperationType
  | cut => .cut
  | engrave => .engrave
  | raster _ => .raster

def raster? : OperationKind → Option RasterSettings
  | raster s => some s
  | _ => none

/-- The kind for a type; raster settings carry over only between raster operations. -/
def convert (t : OperationType) : OperationKind → OperationKind
  | raster s => match t with
    | .raster => raster s
    | t => default t
  | _ => default t

theorem type_convert (t : OperationType) (k : OperationKind) : (k.convert t).type = t := by
  cases t <;> cases k <;> rfl

end OperationKind

structure SettingsUpdate where
  speed : Option Float
  power : Option Float
  dratio : Option Float
  dratioCustom : Option Bool
  acceleration : Option Int
  accelerationCustom : Option Bool
  step : Option Int
  direction : Option RasterDirection
  unidirectional : Option Bool
  overscan : Option Int

namespace SettingsUpdate

def int32? (p : Properties) (key : String) : Option Int :=
  (p.int? key).filter IntRange.int32.contains

def read (p : Properties) : SettingsUpdate where
  speed := p.float? "speed"
  power := p.float? "power"
  dratio := p.float? "dratio"
  dratioCustom := p.flag? "dratio_custom"
  acceleration := int32? p "acceleration"
  accelerationCustom := p.flag? "acceleration_custom"
  step := (int32? p "raster_step").filter (1 ≤ ·)
  direction := (p.int? "raster_direction").bind RasterDirection.ofIndex?
  unidirectional := p.flag? "unidirectional"
  overscan :=
    if p.contains "overscan" then
      some ((int32? p "overscan").getD RasterSettings.defaultOverscan)
    else none

def applyLaser (u : SettingsUpdate) (s : LaserSettings) : LaserSettings where
  speed := u.speed.getD s.speed
  power := u.power.getD s.power
  dratioCustom := u.dratioCustom.getD s.dratioCustom
  dratio := u.dratio.or s.dratio
  accelerationCustom := u.accelerationCustom.getD s.accelerationCustom
  acceleration := u.acceleration.or s.acceleration

def applyRaster (u : SettingsUpdate) (s : RasterSettings) : RasterSettings where
  step := u.step.getD s.step
  direction := u.direction.getD s.direction
  unidirectional := u.unidirectional.getD s.unidirectional
  overscan := u.overscan.getD s.overscan

def applyKind (u : SettingsUpdate) : OperationKind → OperationKind
  | .raster s => .raster (u.applyRaster s)
  | k => k

def agrees {α : Type} [BEq α] (field : α) : Option α → Bool
  | none => true
  | some v => field == v

def agreesSet {α : Type} [BEq α] (field : Option α) : Option α → Bool
  | none => true
  | some v => match field with
    | some w => w == v
    | none => false

def matchesLaser (u : SettingsUpdate) (s : LaserSettings) : Bool :=
  agrees s.speed u.speed && agrees s.power u.power && agreesSet s.dratio u.dratio
    && agrees s.dratioCustom u.dratioCustom && agreesSet s.acceleration u.acceleration
    && agrees s.accelerationCustom u.accelerationCustom

def matchesRaster (u : SettingsUpdate) (s : RasterSettings) : Bool :=
  agrees s.step u.step && agrees s.direction u.direction
    && agrees s.unidirectional u.unidirectional && agrees s.overscan u.overscan

def matchesKind (u : SettingsUpdate) : OperationKind → Bool
  | .raster s => u.matchesRaster s
  | _ => true

end SettingsUpdate
end Engraver
