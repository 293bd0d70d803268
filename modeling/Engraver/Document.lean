import Engraver.Number.Numeral

/-! # Documents

What a JSON or TOML text says before it is read as a type of this library. Reading by name
refuses a known member written twice and ignores unknown members whatever they hold.
-/

namespace Engraver

inductive Document where
  | null
  | bool (b : Bool)
  | int (n : Int)
  | float (x : Float)
  | text (s : String)
  | list (xs : List Document)
  | table (members : List (String × Document))
  | date
  /-- well-formed, but no value: a number out of range, a lone surrogate, too deep a nesting -/
  | unreadable

namespace Document

def bool? : Document → Option Bool
  | bool b => some b
  | _ => none

def float? : Document → Option Float
  | float x => some x
  | int n => some (Float.ofInt n)
  | _ => none

def int? (r : IntRange) : Document → Option Int
  | int n => if r.contains n then some n else none
  | _ => none

def text? : Document → Option String
  | text s => some s
  | _ => none

def tuple? (size : Nat) : Document → Option (List Document)
  | list xs => if xs.length = size then some xs else none
  | _ => none

/-- One of the named variants: its name, or a table of that name and `null`. -/
def variant? (names : List String) : Document → Option String
  | text s => if s ∈ names then some s else none
  | table [(s, null)] => if s ∈ names then some s else none
  | _ => none

def optional? {α : Type} (read : Document → Option α) : Option Document → Option (Option α)
  | none => some none
  | some null => some none
  | some d => (read d).map some

/-- A member must be present. -/
def required? {α : Type} (read : Document → Option α) (d : Option Document) : Option α :=
  d.bind read

def defaulted? {α : Type} (default : α) (read : Document → Option α) :
    Option Document → Option α
  | none => some default
  | some d => read d

def once? (members : List (String × Document)) (name : String) : Option (Option Document) :=
  match members.filter (·.1 = name) with
  | [] => some none
  | [m] => some (some m.2)
  | _ => none

/-- The members called `names`, from a table by name or from a list by position. A list may
not be longer than the names, and shorter only if `open_`. -/
def members? (names : List String) (open_ : Bool) : Document → Option (List (Option Document))
  | table ms => names.mapM (once? ms)
  | list xs =>
    if xs.length = names.length ∨ (open_ ∧ xs.length < names.length) then
      some (xs.map some ++ List.replicate (names.length - xs.length) none)
    else none
  | date => some (names.map fun _ => none)
  | _ => none

end Document
end Engraver
