import Engraver.Text.Characters

/-! # TOML lexemes

Blanks, line ends, comments and the four kinds of quoted text. Each reader takes the characters
in front and gives the rest behind.
-/

namespace Engraver.Toml

def isBlank (c : Char) : Bool :=
  c = ' ' || c = '\t'

def skipBlanks (cs : List Char) : List Char :=
  cs.dropWhile isBlank

def isPlain (c : Char) : Bool :=
  c = '\t' || (' ' ≤ c && c ≠ '\x7f')

def newline? : List Char → Option (List Char)
  | '\n' :: r => some r
  | '\r' :: '\n' :: r => some r
  | _ => none

def skipComment : List Char → List Char
  | '#' :: r => r.dropWhile isPlain
  | cs => cs

/-- The rest behind the end of the line, with blanks and a comment in front of it. The end of the
text is one. -/
def lineEnd? (cs : List Char) : Option (List Char) :=
  match skipComment (skipBlanks cs) with
  | [] => some []
  | r => newline? r

def skipSpace : List Char → List Char
  | [] => []
  | '\r' :: '\n' :: r => skipSpace r
  | c :: r => if isBlank c || c = '\n' then skipSpace r else c :: r

/-- The rest behind blanks, line ends and comments. Each turn takes a character, so fuel for the
length suffices. -/
def skipLines (fuel : Nat) (cs : List Char) : List Char :=
  match fuel with
  | 0 => cs
  | fuel + 1 =>
    match skipBlanks cs with
    | '#' :: r => match newline? (r.dropWhile isPlain) with
      | some r => skipLines fuel r
      | none => '#' :: r
    | r => match newline? r with
      | some r => skipLines fuel r
      | none => r

def scalar? (n : Nat) : Option Char :=
  if n.isValidChar then some (Char.ofNat n) else none

def scalarEscape? (size : Nat) (cs : List Char) : Option (Char × List Char) := do
  if cs.length < size then none
  else
    let n ← Text.hexNumber? (cs.take size)
    let c ← scalar? n
    some (c, cs.drop size)

def escape? : List Char → Option (Char × List Char)
  | 'b' :: r => some ('\x08', r)
  | 't' :: r => some ('\t', r)
  | 'n' :: r => some ('\n', r)
  | 'f' :: r => some ('\x0c', r)
  | 'r' :: r => some ('\r', r)
  | '"' :: r => some ('"', r)
  | '\\' :: r => some ('\\', r)
  | 'u' :: r => scalarEscape? 4 r
  | 'U' :: r => scalarEscape? 8 r
  | _ => none

def basicText? (fuel : Nat) (cs : List Char) : Option (List Char × List Char) :=
  match fuel, cs with
  | 0, _ => none
  | _, [] => none
  | fuel + 1, c :: r =>
    if c = '"' then some ([], r)
    else if c = '\\' then do
      let (e, r) ← escape? r
      let (t, r) ← basicText? fuel r
      some (e :: t, r)
    else if isPlain c then (basicText? fuel r).map fun (t, r) => (c :: t, r)
    else none

def literalText? (cs : List Char) : Option (List Char × List Char) :=
  match cs.span fun c => isPlain c && c ≠ '\'' with
  | (t, '\'' :: r) => some (t, r)
  | _ => none

/-- A run of quotes that closes a text on several lines: three close it, and up to two in front
of them belong to it. -/
def closing? (quote : Char) (cs : List Char) : Option (List Char × List Char) :=
  let n := (cs.takeWhile (· = quote)).length
  if 3 ≤ n ∧ n ≤ 5 then some (List.replicate (n - 3) quote, cs.drop n) else none

def startsWith (w cs : List Char) : Bool :=
  w.isPrefixOf cs

/-- Text on several lines up to three double quotes. A backslash at the end of a line joins the
lines, without the blanks between. -/
def basicLines? (fuel : Nat) (cs : List Char) : Option (List Char × List Char) :=
  match fuel, cs with
  | 0, _ => none
  | _, [] => none
  | fuel + 1, c :: r =>
    if startsWith ['"', '"', '"'] (c :: r) then closing? '"' (c :: r)
    else if c = '\\' then
      match newline? (skipBlanks r) with
      | some r => basicLines? fuel (skipSpace r)
      | none => do
        let (e, r) ← escape? r
        let (t, r) ← basicLines? fuel r
        some (e :: t, r)
    else match newline? (c :: r) with
      | some r => (basicLines? fuel r).map fun (t, r) => ('\n' :: t, r)
      | none =>
        if isPlain c then (basicLines? fuel r).map fun (t, r) => (c :: t, r) else none

def literalLines? (fuel : Nat) (cs : List Char) : Option (List Char × List Char) :=
  match fuel, cs with
  | 0, _ => none
  | _, [] => none
  | fuel + 1, c :: r =>
    if startsWith ['\'', '\'', '\''] (c :: r) then closing? '\'' (c :: r)
    else match newline? (c :: r) with
      | some r => (literalLines? fuel r).map fun (t, r) => ('\n' :: t, r)
      | none =>
        if isPlain c then (literalLines? fuel r).map fun (t, r) => (c :: t, r) else none

def dropFirstNewline (cs : List Char) : List Char :=
  (newline? cs).getD cs

def quotedText? (cs : List Char) : Option (List Char × List Char) :=
  match cs with
  | '"' :: '"' :: '"' :: r => basicLines? (r.length + 1) (dropFirstNewline r)
  | '\'' :: '\'' :: '\'' :: r => literalLines? (r.length + 1) (dropFirstNewline r)
  | '"' :: r => basicText? (r.length + 1) r
  | '\'' :: r => literalText? r
  | _ => none

def isBareKey (c : Char) : Bool :=
  c.isAlphanum || c = '_' || c = '-'

def simpleKey? (cs : List Char) : Option (String × List Char) :=
  match cs with
  | '"' :: r => (basicText? (r.length + 1) r).map fun (t, r) => (String.ofList t, r)
  | '\'' :: r => (literalText? r).map fun (t, r) => (String.ofList t, r)
  | cs => match cs.span isBareKey with
    | ([], _) => none
    | (t, r) => some (String.ofList t, r)

def keyParts? (fuel : Nat) (cs : List Char) : Option (List String × List Char) :=
  match fuel with
  | 0 => none
  | fuel + 1 => do
    let (k, r) ← simpleKey? (skipBlanks cs)
    match skipBlanks r with
    | '.' :: r => (keyParts? fuel r).map fun (ks, r) => (k :: ks, r)
    | r => some ([k], r)

def maxDepth : Nat := 80

def key? (cs : List Char) : Option (List String × List Char) :=
  (keyParts? (cs.length + 1) cs).filter fun k => k.1.length < maxDepth

end Engraver.Toml
