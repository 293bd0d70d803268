import Engraver.Element
import Engraver.Job.Settings
import Engraver.Units

/-! # Laser operations

An operation burns a list of elements with its settings. Its command stream is a header that
brings the machine into a known mode, a body and a return to rapid mode. Cut and engrave plot
the outlines, raster scans the images.
-/

namespace Engraver

structure Operation where
  kind : OperationKind
  settings : LaserSettings
  elements : List Element
  status : String

namespace Operation

def queued : String := "Queued"

def running : String := "Running"

def ofType (t : OperationType) : Operation where
  kind := .default t
  settings := .default t
  elements := []
  status := queued

def type (o : Operation) : OperationType :=
  o.kind.type

def setProperties (o : Operation) (p : Properties) : Operation :=
  let u := SettingsUpdate.read p
  { o with settings := u.applyLaser o.settings, kind := u.applyKind o.kind }

def hasSameProperties (o : Operation) (p : Properties) : Bool :=
  let u := SettingsUpdate.read p
  u.matchesLaser o.settings && u.matchesKind o.kind

def push (o : Operation) (e : Element) : Operation :=
  { o with elements := o.elements ++ [e] }

def extend (o : Operation) (es : List Element) : Operation :=
  { o with elements := o.elements ++ es }

def clear (o : Operation) : Operation :=
  { o with elements := [] }

def ofProperties (t : OperationType) (p : Properties) : Operation :=
  (ofType t).setProperties p

def ofElement (t : OperationType) (e : Element) : Operation :=
  (ofProperties t e.values).push e

def convert (t : OperationType) (o : Operation) : Operation where
  kind := o.kind.convert t
  settings := o.settings
  elements := o.elements
  status := queued

def header (o : Operation) : List Command :=
  [.modeRapid, .setAbsolute, .setSpeed o.settings.speed,
    .setStep ((o.kind.raster?.map (·.step)).getD 0), .setPower o.settings.power,
    .setDRatio o.settings.effectiveDRatio, .setAcceleration o.settings.effectiveAcceleration]

def approach : List Element → List Command
  | [] => []
  | e :: _ => match e.firstPoint? with
    | some p => [.move p.x.toFloat p.y.toFloat]
    | none => []

def plotBody (es : List Element) : List Command :=
  approach es ++ .modeProgram :: es.filterMap fun e => e.outline?.map .plot

def scan (s : RasterSettings) (e : Element) (i : Image) : Scan :=
  .ofSettings i s.traversal s.overscan e.offset s.step

def scanCommands (s : Scan) : List Command :=
  let start := s.initialPosition
  [.modeRapid, .move start.1 start.2, .setDirection s.initialDirection, .modeProgram, .raster s]

def scans (s : RasterSettings) (es : List Element) : List Scan :=
  es.filterMap fun e => e.image?.map (scan s e)

def rasterBody (s : RasterSettings) (es : List Element) : List Command :=
  .setDirection s.traversal.direction :: (scans s es).flatMap scanCommands

def body (o : Operation) : List Command :=
  match o.kind with
  | .raster s => rasterBody s o.elements
  | _ => plotBody o.elements

def generate (o : Operation) : List Command :=
  o.header ++ o.body ++ [.modeRapid]

def rate (o : Operation) : Float :=
  milsPerMillimetre * o.settings.speed

/-- The sum in order; an empty one is negative zero, which adds to nothing. -/
def total (xs : List Float) : Float :=
  xs.foldl (· + ·) (-0.0)

/-- The step that an image asks for, else that of the operation. -/
def estimatedStep (s : RasterSettings) (e : Element) : Int :=
  ((e.values.int? "raster_step").filter (1 ≤ ·)).getD s.step

def scanTime (rate : Float) (s : RasterSettings) (e : Element) (i : Image) : Float :=
  let area := Float.ofNat i.width.toNat * Float.ofNat i.height.toNat
  area * Float.ofInt (estimatedStep s e) / rate

/-- Times of the parts of the work; without speed any work takes for ever. -/
def estimateParts (rate : Float) (parts : List Float) : Float :=
  if parts.isEmpty then 0.0
  else if rate == 0.0 then 1.0 / 0.0
  else total parts

def estimateSeconds (o : Operation) : Float :=
  let rate := o.rate
  match o.kind with
  | .raster s =>
    estimateParts rate (o.elements.filterMap fun e => e.image?.map (scanTime rate s e))
  | _ => estimateParts rate (o.elements.map fun e => e.length?.getD 0.0 / rate)

def estimate (o : Operation) : String :=
  Duration.format o.estimateSeconds

def describe (o : Operation) : String :=
  match o.kind with
  | .raster s =>
    "Raster: (speed=" ++ plainFloat o.settings.speed ++ ", step=" ++ toString s.step
      ++ ", direction=" ++ toString s.direction.index ++ ", overscan=" ++ toString s.overscan ++ ")"
  | k =>
    k.type.name ++ ": (speed=" ++ Fixed.render 6 o.settings.speed ++ ", power="
      ++ Fixed.render 6 o.settings.power ++ ")"

end Operation
end Engraver
