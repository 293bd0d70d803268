import Engraver.Document
import Engraver.KeyMap
import Engraver.Number.FloatText
import Engraver.Text.Characters

/-! # JSON values

Numbers keep apart whether they were written as an integer or as a float. Objects are ordered by
key, and the last of several members of one key counts. Written compactly a value has no blanks; the
indented form has a line per element, two spaces a level.
-/

namespace Engraver.Json

inductive Number where
  /-- from `-2 ^ 63` and below `2 ^ 64` -/
  | int (n : Int)
  | float (x : Float)

inductive Value where
  | null
  | bool (b : Bool)
  | number (n : Number)
  | text (s : String)
  | list (xs : List Value)
  | object (members : List (String × Value))

instance : Inhabited Value := ⟨.null⟩

namespace Number

def toFloat : Number → Float
  | int n => Float.ofInt n
  | float x => x

/-- An integer is never the same number as a float. -/
def same : Number → Number → Bool
  | int m, int n => m == n
  | float x, float y => x == y
  | _, _ => false

end Number

namespace Value

def int (n : Int) : Value :=
  .number (.int n)

def ofMembers (ms : List (String × Value)) : Value :=
  .object (KeyMap.ofList ms).entries

mutual

def same : Value → Value → Bool
  | .null, .null => true
  | .bool a, .bool b => a == b
  | .number m, .number n => m.same n
  | .text s, .text t => s == t
  | .list xs, .list ys => sameList xs ys
  | .object ms, .object ns => sameMembers ms ns
  | _, _ => false

def sameList : List Value → List Value → Bool
  | [], [] => true
  | x :: xs, y :: ys => x.same y && sameList xs ys
  | _, _ => false

def sameMembers : List (String × Value) → List (String × Value) → Bool
  | [], [] => true
  | (k, x) :: ms, (j, y) :: ns => k == j && x.same y && sameMembers ms ns
  | _, _ => false

end

mutual

def ofDocument? : Document → Option Value
  | .null => some .null
  | .bool b => some (.bool b)
  | .int n => some (.number (.int n))
  | .float x => some (.number (.float x))
  | .text s => some (.text s)
  | .list xs => (ofDocuments? xs).map .list
  | .table ms => (ofTable? ms).map ofMembers
  | .date => none
  | .unreadable => none

def ofDocuments? : List Document → Option (List Value)
  | [] => some []
  | d :: r => do
    let v ← ofDocument? d
    let vs ← ofDocuments? r
    some (v :: vs)

def ofTable? : List (String × Document) → Option (List (String × Value))
  | [] => some []
  | (k, d) :: r => do
    let v ← ofDocument? d
    let vs ← ofTable? r
    some ((k, v) :: vs)

end

def get? (v : Value) (key : String) : Option Value :=
  match v with
  | .object ms => KeyMap.find? key ms
  | _ => none

end Value

/-- A float in JSON keeps `.0`; far magnitudes take a signed exponent; what JSON cannot say is
`null`. -/
def floatText : FloatText where
  positional := some (-5, 16)
  pointZero := true
  plusSign := true
  tie := .even
  nan := "null"
  infinite := "null"
  negativeInfinite := "null"

def escape (c : Char) : List Char :=
  if c = '"' then ['\\', '"']
  else if c = '\\' then ['\\', '\\']
  else if c = '\x08' then ['\\', 'b']
  else if c = '\t' then ['\\', 't']
  else if c = '\n' then ['\\', 'n']
  else if c = '\x0c' then ['\\', 'f']
  else if c = '\r' then ['\\', 'r']
  else if c.toNat < 0x20 then
    ['\\', 'u', '0', '0', Text.hexDigit (c.toNat / 16), Text.hexDigit c.toNat]
  else [c]

def quoted (s : String) : String :=
  String.ofList ('"' :: s.toList.flatMap escape ++ ['"'])

def Number.render : Number → String
  | .int n => toString n
  | .float x => floatText.render x

namespace Value

def brackets (opening closing : String) (parts : List String) : String :=
  opening ++ ",".intercalate parts ++ closing

mutual

def compact : Value → String
  | .null => "null"
  | .bool b => if b then "true" else "false"
  | .number n => n.render
  | .text s => quoted s
  | .list xs => brackets "[" "]" (compactList xs)
  | .object ms => brackets "\x7b" "\x7d" (compactMembers ms)

def compactList : List Value → List String
  | [] => []
  | x :: r => x.compact :: compactList r

def compactMembers : List (String × Value) → List String
  | [] => []
  | (k, x) :: r => (quoted k ++ ":" ++ x.compact) :: compactMembers r

end

def newLine (level : Nat) : String :=
  String.ofList ('\n' :: List.replicate (2 * level) ' ')

def block (level : Nat) (opening closing : String) (parts : List String) : String :=
  if parts.isEmpty then opening ++ closing
  else
    let open_ := newLine (level + 1)
    opening ++ open_ ++ ("," ++ open_).intercalate parts ++ newLine level ++ closing

mutual

def indented (level : Nat) : Value → String
  | .null => "null"
  | .bool b => if b then "true" else "false"
  | .number n => n.render
  | .text s => quoted s
  | .list xs => block level "[" "]" (indentedList (level + 1) xs)
  | .object ms => block level "\x7b" "\x7d" (indentedMembers (level + 1) ms)

def indentedList (level : Nat) : List Value → List String
  | [] => []
  | x :: r => x.indented level :: indentedList level r

def indentedMembers (level : Nat) : List (String × Value) → List String
  | [] => []
  | (k, x) :: r => (quoted k ++ ": " ++ x.indented level) :: indentedMembers level r

end

end Value
end Engraver.Json
