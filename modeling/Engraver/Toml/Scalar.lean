import Engraver.Document
import Engraver.Toml.Lexeme

/-! # TOML numbers and dates

Integers have 64 signed bits. A float beyond the range of the floats cannot be read. Of dates and
times only the form and the ranges of the fields count.
-/

namespace Engraver.Toml

abbrev Reading := Option (Document × List Char)

/-- Behind a digit: digits, each with at most one underscore in front. -/
def moreDigits (ok : Char → Bool) : List Char → List Char × List Char
  | [] => ([], [])
  | [c] => if ok c then ([c], []) else ([], [c])
  | c :: d :: r =>
    if ok c then
      let (ds, rest) := moreDigits ok (d :: r)
      (c :: ds, rest)
    else if c = '_' && ok d then
      let (ds, rest) := moreDigits ok r
      (d :: ds, rest)
    else ([], c :: d :: r)

def digitRun? (ok : Char → Bool) : List Char → Option (List Char × List Char)
  | c :: r =>
    if ok c then
      let (ds, rest) := moreDigits ok r
      some (c :: ds, rest)
    else none
  | [] => none

def wholeDigits? : List Char → Option (List Char × List Char)
  | '0' :: r => some (['0'], r)
  | cs => digitRun? Char.isDigit cs

def intDocument? (n : Int) : Option Document :=
  if IntRange.int64.contains n then some (.int n) else none

def basedInt? (base : Nat) (cs : List Char) : Reading := do
  let (ds, r) ← digitRun? (fun c => (Text.number? base [c]).isSome) cs
  let n ← Text.number? base ds
  let d ← intDocument? n
  some (d, r)

def floatDocument? (negative : Bool) (digits : List Char) (e : Int) : Option Document :=
  let x := Numeral.scientific (Numeral.value digits) e
  if x.isInf then none else some (.float (if negative then -x else x))

def exponentMark (c : Char) : Bool :=
  c = 'e' || c = 'E'

def exponent? (cs : List Char) : Option (Int × List Char) := do
  let (negative, r) := Numeral.splitSign cs
  let (ds, r) ← digitRun? Char.isDigit r
  some (if negative then -(Numeral.value ds : Int) else Numeral.value ds, r)

def numberTail? (negative : Bool) (whole : List Char) (cs : List Char) : Reading :=
  match cs with
  | '.' :: r => do
    let (fraction, r) ← digitRun? Char.isDigit r
    let (e, r) ← match r with
      | c :: r' => if exponentMark c then exponent? r' else some (0, r)
      | [] => some (0, [])
    let d ← floatDocument? negative (whole ++ fraction) (e - fraction.length)
    some (d, r)
  | c :: r =>
    if exponentMark c then do
      let (e, r) ← exponent? r
      let d ← floatDocument? negative whole e
      some (d, r)
    else (intDocument? (signed negative whole)).map (·, c :: r)
  | [] => (intDocument? (signed negative whole)).map (·, [])
where
  signed (negative : Bool) (ds : List Char) : Int :=
    if negative then -(Numeral.value ds : Int) else Numeral.value ds

def decimal? (cs : List Char) : Reading :=
  let (negative, r) := Numeral.splitSign cs
  match r with
  | 'i' :: 'n' :: 'f' :: r => some (.float (if negative then -1.0 / 0.0 else 1.0 / 0.0), r)
  | 'n' :: 'a' :: 'n' :: r => some (.float (0.0 / 0.0), r)
  | r => do
    let (whole, r) ← wholeDigits? r
    numberTail? negative whole r

def fixedDigits? (size lo hi : Nat) (cs : List Char) : Option (Nat × List Char) :=
  let ds := cs.take size
  let n := Numeral.value ds
  if ds.length = size ∧ ds.all Char.isDigit ∧ lo ≤ n ∧ n ≤ hi then some (n, cs.drop size)
  else none

def behindChar? (c : Char) : List Char → Option (List Char)
  | d :: r => if c = d then some r else none
  | [] => none

def isLeapYear (y : Nat) : Bool :=
  y % 4 = 0 && (y % 100 ≠ 0 || y % 400 = 0)

def daysInMonth (year month : Nat) : Nat :=
  if month = 2 then (if isLeapYear year then 29 else 28)
  else if month = 4 ∨ month = 6 ∨ month = 9 ∨ month = 11 then 30
  else 31

def date? (cs : List Char) : Option (List Char) := do
  let (year, r) ← fixedDigits? 4 0 9999 cs
  let r ← behindChar? '-' r
  let (month, r) ← fixedDigits? 2 1 12 r
  let r ← behindChar? '-' r
  let (_, r) ← fixedDigits? 2 1 (daysInMonth year month) r
  some r

def secondFraction : List Char → List Char
  | '.' :: r => match r.span Char.isDigit with
    | ([], _) => '.' :: r
    | (_, rest) => rest
  | cs => cs

def time? (cs : List Char) : Option (List Char) := do
  let (_, r) ← fixedDigits? 2 0 23 cs
  let r ← behindChar? ':' r
  let (_, r) ← fixedDigits? 2 0 59 r
  let r ← behindChar? ':' r
  let (_, r) ← fixedDigits? 2 0 60 r
  some (secondFraction r)

def offset? : List Char → Option (List Char)
  | [] => some []
  | c :: r =>
    if c = 'Z' || c = 'z' then some r
    else if c = '+' || c = '-' then do
      let (_, r) ← fixedDigits? 2 0 23 r
      let r ← behindChar? ':' r
      let (_, r) ← fixedDigits? 2 0 59 r
      some r
    else some (c :: r)

def timeOfDate? : List Char → Option (List Char)
  | c :: r =>
    if c = 'T' || c = 't' then (time? r).bind offset?
    else if c = ' ' then
      match r with
      | d :: _ => if d.isDigit then (time? r).bind offset? else some (c :: r)
      | [] => some [c]
    else some (c :: r)
  | [] => some []

/-- The first characters are those of a date or of a time. -/
def looksLikeMoment (cs : List Char) : Bool :=
  match cs with
  | a :: b :: ':' :: _ => a.isDigit && b.isDigit
  | a :: b :: c :: d :: '-' :: _ => a.isDigit && b.isDigit && c.isDigit && d.isDigit
  | _ => false

def moment? (cs : List Char) : Reading :=
  let rest? := match cs with
    | _ :: _ :: ':' :: _ => time? cs
    | _ => (date? cs).bind timeOfDate?
  rest?.map (.date, ·)

def scalar (cs : List Char) : Reading :=
  match cs with
  | '0' :: 'x' :: r => basedInt? 16 r
  | '0' :: 'o' :: r => basedInt? 8 r
  | '0' :: 'b' :: r => basedInt? 2 r
  | cs => if looksLikeMoment cs then moment? cs else decimal? cs

end Engraver.Toml
