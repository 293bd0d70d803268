import Engraver.Json.Basic
import Engraver.Text.Characters

/-! # Reading JSON

Strict JSON: no blanks but space, tab and line ends, no leading zeros, nothing behind the value.
What is well-formed but stands for no value (a number beyond the floats, a lone surrogate, a
nesting deeper than 127) becomes `unreadable`, so that it does no harm where it is ignored.
-/

namespace Engraver.Json

def isBlank (c : Char) : Bool :=
  c = ' ' || c = '\t' || c = '\n' || c = '\r'

def skipBlanks (cs : List Char) : List Char :=
  cs.dropWhile isBlank

/-- A piece of a quoted text: a character, or a 16-bit unit written as an escape. -/
inductive Piece where
  | char (c : Char)
  | unit (n : Nat)

def unescape? : Char → Option Char
  | '"' => some '"'
  | '\\' => some '\\'
  | '/' => some '/'
  | 'b' => some '\x08'
  | 'f' => some '\x0c'
  | 'n' => some '\n'
  | 'r' => some '\r'
  | 't' => some '\t'
  | _ => none

def pieces? : List Char → Option (List Piece × List Char)
  | [] => none
  | '"' :: r => some ([], r)
  | '\\' :: 'u' :: a :: b :: c :: d :: r => do
    let n ← Text.hexNumber? [a, b, c, d]
    let (ps, rest) ← pieces? r
    some (.unit n :: ps, rest)
  | '\\' :: c :: r => do
    let e ← unescape? c
    let (ps, rest) ← pieces? r
    some (.char e :: ps, rest)
  | c :: r =>
    if c.toNat < 0x20 then none
    else do
      let (ps, rest) ← pieces? r
      some (.char c :: ps, rest)

def textOf? : List Piece → Option (List Char)
  | [] => some []
  | .char c :: r => (textOf? r).map (c :: ·)
  | .unit n :: r =>
    if n < 0xd800 || 0xe000 ≤ n then (textOf? r).map (Char.ofNat n :: ·)
    else if 0xdc00 ≤ n then none
    else match r with
      | .unit k :: r =>
        if 0xdc00 ≤ k ∧ k < 0xe000 then
          (textOf? r).map (Char.ofNat (0x10000 + (n - 0xd800) * 0x400 + (k - 0xdc00)) :: ·)
        else none
      | _ => none

def wholeDigits? (cs : List Char) : Option (List Char × List Char) :=
  match Numeral.spanDigits cs with
  | ([], _) => none
  | ('0' :: _ :: _, _) => none
  | (ds, r) => some (ds, r)

def fractionDigits? : List Char → Option (Option (List Char) × List Char)
  | '.' :: r =>
    match Numeral.spanDigits r with
    | ([], _) => none
    | (ds, r) => some (some ds, r)
  | r => some (none, r)

def exponentDigits? : List Char → Option (Option Int × List Char)
  | c :: r =>
    if c = 'e' || c = 'E' then
      let (negative, r) := Numeral.splitSign r
      match Numeral.spanDigits r with
      | ([], _) => none
      | (ds, r) =>
        let n : Int := Numeral.value ds
        some (some (if negative then -n else n), r)
    else some (none, c :: r)
  | [] => some (none, [])

/-- Appends digits to a number as long as 64 bits hold it; the rest is left over. -/
def absorb (n : Nat) : List Char → Nat × List Char
  | [] => (n, [])
  | c :: r =>
    let next := Nat.ofDigitChars 10 [c] n
    if next < 0x10000000000000000 then absorb next r else (n, c :: r)

def powerOfTen (n : Nat) : Float :=
  Float.ofScientific 1 false n

/-- `x / 10 ^ n`, by one division within the range of the floats, else by several. -/
def divideTen (x : Float) (n : Nat) : Float :=
  if n ≤ 308 then x / powerOfTen n
  else if x == 0.0 then x
  else divideTen (x / powerOfTen 308) (n - 308)
termination_by n

def scaled? (significand : Nat) (e : Int) : Option Float :=
  let x := Float.ofNat significand
  if e < 0 then some (divideTen x (-e).toNat)
  else if significand = 0 then some x
  else if e ≤ 308 then
    let y := x * powerOfTen e.toNat
    if y.isInf then none else some y
  else none

/-- An integer that 64 bits hold stays one; negative zero does not. Of other numbers the digits
that fit 64 bits count, and the rest by their number only. -/
def numberDocument (negative : Bool) (whole : List Char) (fraction : Option (List Char))
    (exponent : Option Int) : Document :=
  let (n, left) := absorb 0 whole
  let plain := fraction.isNone && exponent.isNone && left.isEmpty
  if plain && !negative then .int n
  else if plain && 0 < n && n ≤ 0x8000000000000000 then .int (-n)
  else
    let ds := fraction.getD []
    let (n, dropped) := absorb n ds
    let e := exponent.getD 0 + left.length - (ds.length - dropped.length : Nat)
    match scaled? n e with
    | some x => .float (if negative then -x else x)
    | none => .unreadable

def number? (cs : List Char) : Option (Document × List Char) := do
  let (negative, r) := match cs with
    | '-' :: r => (true, r)
    | r => (false, r)
  let (whole, r) ← wholeDigits? r
  let (fraction, r) ← fractionDigits? r
  let (exponent, r) ← exponentDigits? r
  some (numberDocument negative whole fraction exponent, r)

def word? : List Char → List Char → Option (List Char)
  | [], r => some r
  | w :: ws, c :: r => if w = c then word? ws r else none
  | _ :: _, [] => none

def textDocument (ps : List Piece) : Document :=
  match textOf? ps with
  | some cs => .text (String.ofList cs)
  | none => .unreadable

def tableDocument (ms : List (List Piece × Document)) : Document :=
  match ms.mapM fun m => (textOf? m.1).map fun cs => (String.ofList cs, m.2) with
  | some ms => .table ms
  | none => .unreadable

def maxDepth : Nat := 127

mutual

/-- A value inside `depth` lists and tables, and the rest behind it. Of two nested calls one
consumes a character, so fuel for twice the length of the text suffices. -/
def value? (fuel depth : Nat) (cs : List Char) : Option (Document × List Char) :=
  match fuel with
  | 0 => none
  | fuel + 1 =>
    match cs with
    | '"' :: r => (pieces? r).map fun (ps, r) => (textDocument ps, r)
    | '[' :: r => do
      let (xs, r) ← match skipBlanks r with
        | ']' :: r => some ([], r)
        | r => elements? fuel (depth + 1) r
      some (if depth < maxDepth then .list xs else .unreadable, r)
    | '\x7b' :: r => do
      let (ms, r) ← match skipBlanks r with
        | '\x7d' :: r => some ([], r)
        | r => members? fuel (depth + 1) r
      some (if depth < maxDepth then tableDocument ms else .unreadable, r)
    | 't' :: _ => (word? ['t', 'r', 'u', 'e'] cs).map ((.bool true, ·))
    | 'f' :: _ => (word? ['f', 'a', 'l', 's', 'e'] cs).map ((.bool false, ·))
    | 'n' :: _ => (word? ['n', 'u', 'l', 'l'] cs).map ((.null, ·))
    | _ => number? cs

def elements? (fuel depth : Nat) (cs : List Char) : Option (List Document × List Char) :=
  match fuel with
  | 0 => none
  | fuel + 1 => do
    let (x, r) ← value? fuel depth (skipBlanks cs)
    match skipBlanks r with
    | ']' :: r => some ([x], r)
    | ',' :: r =>
      let (xs, r) ← elements? fuel depth r
      some (x :: xs, r)
    | _ => none

def members? (fuel depth : Nat) (cs : List Char) :
    Option (List (List Piece × Document) × List Char) :=
  match fuel with
  | 0 => none
  | fuel + 1 =>
    match skipBlanks cs with
    | '"' :: r => do
      let (k, r) ← pieces? r
      match skipBlanks r with
      | ':' :: r =>
        let (x, r) ← value? fuel depth (skipBlanks r)
        match skipBlanks r with
        | '\x7d' :: r => some ([(k, x)], r)
        | ',' :: r =>
          let (ms, r) ← members? fuel depth r
          some ((k, x) :: ms, r)
        | _ => none
      | _ => none
    | _ => none

end

def document? (s : String) : Option Document :=
  let cs := s.toList
  match value? (2 * cs.length + 1) 0 (skipBlanks cs) with
  | some (d, r) => if r.all isBlank then some d else none
  | none => none

def parse? (s : String) : Option Value :=
  (document? s).bind Value.ofDocument?

end Engraver.Json
