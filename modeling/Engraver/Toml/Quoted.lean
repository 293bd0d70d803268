import Engraver.Number.FloatText
import Engraver.Text.Characters

/-! # Written TOML

Floats, and texts in the first of several styles that fits them.
-/

namespace Engraver.Toml

def floatText : FloatText where
  positional := none
  pointZero := true
  plusSign := false
  tie := .up
  nan := "nan"
  infinite := "inf"
  negativeInfinite := "-inf"

def isControl (c : Char) : Bool :=
  c < ' ' || c = '\x7f'

/-- A control character that no style has as it is. -/
def needsEscape (c : Char) : Bool :=
  isControl c && c ≠ '\t' && c ≠ '\n'

def hasRun (c : Char) : List Char → Bool
  | a :: b :: d :: r => (a = c && b = c && d = c) || hasRun c (b :: d :: r)
  | _ => false

inductive Style where
  | basic
  | literal
  | basicLines
  | literalLines
  deriving DecidableEq, Repr

namespace Style

def choose (cs : List Char) : Style :=
  let lines := cs.contains '\n'
  let control := cs.any needsEscape
  if !control && !lines && !cs.contains '"' && !cs.contains '\\' then basic
  else if !control && !lines && !cs.contains '\'' then literal
  else if !control && !cs.contains '\\' && !hasRun '"' cs then basicLines
  else if !control && !hasRun '\'' cs then literalLines
  else if lines then basicLines
  else basic

def delimiter : Style → List Char
  | basic => ['"']
  | literal => ['\'']
  | basicLines => ['"', '"', '"']
  | literalLines => ['\'', '\'', '\'']

def isEscaped : Style → Bool
  | basic => true
  | basicLines => true
  | _ => false

def hasLines : Style → Bool
  | basicLines => true
  | literalLines => true
  | _ => false

end Style

def escape (lines : Bool) (c : Char) : List Char :=
  if c = '\x08' then ['\\', 'b']
  else if c = '\t' then ['\\', 't']
  else if c = '\n' then (if lines then ['\n'] else ['\\', 'n'])
  else if c = '\x0c' then ['\\', 'f']
  else if c = '\r' then ['\\', 'r']
  else if c = '\\' then ['\\', '\\']
  else if isControl c then
    ['\\', 'u', '0', '0', (Text.hexDigit (c.toNat / 16)).toUpper, (Text.hexDigit c.toNat).toUpper]
  else [c]

/-- The characters with escapes, behind `run` quotes written plain. On several lines two quotes in
a row stay plain, on one line none. -/
def escapeAll (lines : Bool) (run : Nat) : List Char → List Char
  | [] => []
  | c :: r =>
    if c = '"' then
      if lines && run < 2 then '"' :: escapeAll lines (run + 1) r
      else '\\' :: '"' :: escapeAll lines 0 r
    else escape lines c ++ escapeAll lines 0 r

def quote (s : String) : String :=
  let cs := s.toList
  let style := Style.choose cs
  let opening := if style.hasLines && cs.contains '\n' then ['\n'] else []
  let body := if style.isEscaped then escapeAll style.hasLines 0 cs else cs
  String.ofList (style.delimiter ++ opening ++ body ++ style.delimiter)

end Engraver.Toml
