import Engraver.Json.Basic
import Engraver.Text.Characters

/-! # Loosely typed properties

Settings arrive as JSON values under string keys. The strict readers say why a value cannot be
read; the lenient ones leave it out.

* float: numbers, texts of a number with blanks around it, booleans as one and zero
* integer: whole numbers, other finite numbers rounded toward zero, texts of an integer, booleans
* flag: booleans, numbers that are not zero, and the words of `flagWord?`
-/

namespace Engraver

inductive PropertyError where
  | missing (key : String)
  | invalidType (key value expected : String)
  | outOfRange (key value : String)
  deriving DecidableEq, Repr

namespace PropertyError

def message : PropertyError → String
  | missing key => s!"Property '{key}' is not set"
  | invalidType key value expected => s!"Property '{key}' has value {value}, expected {expected}"
  | outOfRange key value => s!"Property '{key}' value {value} is out of range"

end PropertyError

abbrev Properties := KeyMap String Json.Value

namespace Properties

def flagWord? (s : String) : Option Bool :=
  match String.ofList (Text.lower (Text.trim s.toList)) with
  | "true" | "yes" | "on" | "1" => some true
  | "false" | "no" | "off" | "0" | "" => some false
  | _ => none

def readFloat? : Json.Value → Option Float
  | .number n => some n.toFloat
  | .text s => Numeral.float? (Text.trim s.toList)
  | .bool b => some (if b then 1.0 else 0.0)
  | _ => none

/-- A float rounded toward zero, if 64 signed bits hold the result. -/
def truncInt64? (b : Binary) : Option Int :=
  match b with
  | .finite _ m q => if Binary.whole m q < 0x8000000000000000 then b.trunc? else none
  | _ => none

def numberInt? : Json.Number → Option Int
  | .int n => if IntRange.int64.contains n then some n else none
  | .float x => truncInt64? (.ofFloat x)

def readFlag? : Json.Value → Option Bool
  | .bool b => some b
  | .number n => some (n.toFloat != 0.0)
  | .text s => flagWord? s
  | _ => none

def require (p : Properties) (key : String) : Except PropertyError Json.Value :=
  match p.get? key with
  | some v => .ok v
  | none => .error (.missing key)

def invalid (key : String) (v : Json.Value) (expected : String) : PropertyError :=
  .invalidType key v.compact expected

def float (p : Properties) (key : String) : Except PropertyError Float := do
  let v ← p.require key
  match readFloat? v with
  | some x => .ok x
  | none => .error (invalid key v "float")

def int (p : Properties) (key : String) : Except PropertyError Int := do
  let v ← p.require key
  match v with
  | .number n =>
    match numberInt? n with
    | some i => .ok i
    | none => .error (.outOfRange key v.compact)
  | .text s =>
    match Numeral.int64? (Text.trim s.toList) with
    | some i => .ok i
    | none => .error (invalid key v "integer")
  | .bool b => .ok (if b then 1 else 0)
  | _ => .error (invalid key v "integer")

def flag (p : Properties) (key : String) : Except PropertyError Bool := do
  let v ← p.require key
  match readFlag? v with
  | some b => .ok b
  | none => .error (invalid key v "boolean")

def float? (p : Properties) (key : String) : Option Float :=
  (p.float key).toOption

def int? (p : Properties) (key : String) : Option Int :=
  (p.int key).toOption

def flag? (p : Properties) (key : String) : Option Bool :=
  (p.flag key).toOption

def same (p q : Properties) : Bool :=
  Json.Value.sameMembers p.entries q.entries

def toJson (p : Properties) : Json.Value :=
  .object p.entries

def ofDocument? (d : Document) : Option Properties :=
  match Json.Value.ofDocument? d with
  | some (.object ms) => some (.ofList ms)
  | _ => none

end Properties
end Engraver
