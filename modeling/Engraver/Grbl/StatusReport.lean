import Engraver.Number.FloatText
import Engraver.Number.Numeral
import Engraver.Text.Characters

/-! # Status reports

`<State|MPos:x,y,z|FS:feed,power>` with a line end: position and feed with six places, the power
as an integer. Reading takes the line with or without the angle brackets and the line end.
-/

namespace Engraver

structure StatusReport where
  state : String
  x : Float
  y : Float
  z : Float
  feed : Float
  power : Int

namespace StatusReport

def format (r : StatusReport) : String :=
  let places := Fixed.render 6
  "<" ++ r.state ++ "|MPos:" ++ places r.x ++ "," ++ places r.y ++ "," ++ places r.z
    ++ "|FS:" ++ places r.feed ++ "," ++ toString r.power ++ ">\r\n"

/-- What stands between a pair of angle brackets around the whole; else all of it. -/
def unbracket (cs : List Char) : List Char :=
  match cs with
  | '<' :: r => if r.getLast? = some '>' then r.dropLast else cs
  | _ => cs

def behind? (marker : List Char) : List Char → Option (List Char)
  | [] => if marker.isEmpty then some [] else none
  | c :: r => if marker.isPrefixOf (c :: r) then some ((c :: r).drop marker.length)
    else behind? marker r

def field? (marker : String) (body : List Char) : Option (List Char) :=
  (behind? marker.toList body).map (·.takeWhile (· ≠ '|'))

def entries : List Char → List (List Char)
  | [] => [[]]
  | c :: r =>
    if c = ',' then [] :: entries r
    else match entries r with
      | [] => [[c]]
      | e :: es => (c :: e) :: es

/-- The position: the first three entries that are numbers. -/
def position? (body : List Char) : Option (Float × Float × Float) := do
  let cs ← field? "MPos:" body
  match (entries cs).filterMap fun e => Numeral.float? (Text.trim e) with
  | x :: y :: z :: _ => some (x, y, z)
  | _ => none

def speed? (body : List Char) : Option (Float × Int) := do
  let cs ← field? "FS:" body
  match entries cs with
  | f :: p :: _ => some (← Numeral.float? (Text.trim f), ← Numeral.int64? (Text.trim p))
  | _ => none

def parse? (line : String) : Option StatusReport := do
  let body := unbracket (Text.trim line.toList)
  let state := Text.trim (body.takeWhile (· ≠ '|'))
  if state.isEmpty then none
  else
    let (x, y, z) ← position? body
    let (feed, power) ← speed? body
    some ⟨String.ofList state, x, y, z, feed, power⟩

/-- The same report, by value: a coordinate that is not a number differs from itself. -/
def same (r s : StatusReport) : Bool :=
  r.state == s.state && r.x == s.x && r.y == s.y && r.z == s.z && r.feed == s.feed
    && r.power == s.power

end StatusReport
end Engraver
