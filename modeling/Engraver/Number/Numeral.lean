import Engraver.Number.Binary

/-! # Numbers read from text

A float is an optional sign and either a word (`inf`, `infinity`, `nan` in any case) or digits
with at most one point, at least one digit, and an optional exponent. An integer is an optional
sign and digits. Nothing else may stand around them.
-/

namespace Engraver.Numeral

def splitSign : List Char → Bool × List Char
  | '-' :: r => (true, r)
  | '+' :: r => (false, r)
  | r => (false, r)

def spanDigits (cs : List Char) : List Char × List Char :=
  cs.span Char.isDigit

def value (ds : List Char) : Nat :=
  Nat.ofDigitChars 10 ds 0

/-- The digits around the point, without and behind it; at least one of them is not empty. -/
def mantissa? (cs : List Char) : Option (List Char × List Char × List Char) :=
  let (whole, r) := spanDigits cs
  let (fraction, r) := match r with
    | '.' :: r => spanDigits r
    | r => ([], r)
  if whole.isEmpty && fraction.isEmpty then none else some (whole, fraction, r)

/-- An exponent that ends the text; none at all is zero. -/
def exponent? : List Char → Option Int
  | [] => some 0
  | c :: r =>
    if c = 'e' || c = 'E' then
      let (negative, ds) := splitSign r
      if ds.isEmpty || !ds.all Char.isDigit then none
      else some (if negative then -(value ds : Int) else value ds)
    else none

def scientific (digits : Nat) (e : Int) : Float :=
  Float.ofScientific digits (e < 0) e.natAbs

def magnitude? (cs : List Char) : Option Float := do
  let (whole, fraction, r) ← mantissa? cs
  let e ← exponent? r
  some (scientific (value (whole ++ fraction)) (e - fraction.length))

def word? (cs : List Char) : Option Float :=
  let w := String.ofList (cs.map Char.toLower)
  if w = "inf" || w = "infinity" then some (1.0 / 0.0)
  else if w = "nan" then some (0.0 / 0.0)
  else none

def float? (cs : List Char) : Option Float :=
  let (negative, r) := splitSign cs
  ((word? r).or (magnitude? r)).map fun x => if negative then -x else x

def int? (cs : List Char) : Option Int :=
  let (negative, ds) := splitSign cs
  if ds.isEmpty || !ds.all Char.isDigit then none
  else some (if negative then -(value ds : Int) else value ds)

def int64? (cs : List Char) : Option Int :=
  (int? cs).filter IntRange.int64.contains

end Engraver.Numeral
