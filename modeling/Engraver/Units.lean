import Engraver.Number.FloatText
import Engraver.Text.Characters

/-! # Units

Device coordinates are mils, thousandths of an inch. Durations are written as `H:MM:SS`.
-/

namespace Engraver

def milsPerMillimetre : Float := 39.3701

def milsPerInch : Float := 1000.0

inductive MeasurementSystem where
  | metric
  | imperial
  deriving DecidableEq, Repr

namespace MeasurementSystem

def milsPerUnit : MeasurementSystem → Float
  | metric => milsPerMillimetre
  | imperial => milsPerInch

def name : MeasurementSystem → String
  | metric => "Metric"
  | imperial => "Imperial"

def storedName : MeasurementSystem → String
  | metric => "metric"
  | imperial => "imperial"

def ofStoredName? : String → Option MeasurementSystem
  | "metric" => some metric
  | "imperial" => some imperial
  | _ => none

/-- Reads a system by name or unit, in any case. The words have none of the letters that a
character outside ASCII becomes in lower case, so ASCII lower case decides. -/
def parse? (s : String) : Option MeasurementSystem :=
  match String.ofList (Text.lower s.toList) with
  | "metric" | "mm" => some metric
  | "imperial" | "inch" | "in" => some imperial
  | _ => none

def unknownMessage (s : String) : String :=
  "Unknown measurement system: " ++ s

end MeasurementSystem

namespace Duration

/-- Whole seconds of a duration, from zero to what 64 bits hold. -/
def wholeSeconds (b : Binary) : Nat :=
  (b.saturate .uint64).toNat

def clock (seconds : Nat) : List Char :=
  Nat.toDigits 10 (seconds / 3600) ++ ':' :: Fixed.padded 2 (seconds / 60 % 60)
    ++ ':' :: Fixed.padded 2 (seconds % 60)

def format (seconds : Float) : String :=
  let b := Binary.ofFloat seconds
  if b.isFinite then String.ofList (clock (wholeSeconds b)) else "∞"

end Duration
end Engraver
