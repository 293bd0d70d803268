import Engraver.Document
import Engraver.Toml.Scalar

/-! # Reading TOML

A text is read into statements, a member or a header each, and the statements build a tree of tables
step by step. How a table came about decides what may still be added to it: a header names a table
once, dotted keys extend only tables made by dotted keys, and a value is never extended.
-/

namespace Engraver.Toml

inductive Origin where
  | header
  /-- stands above a table that a header names -/
  | implied
  /-- stands above a member with a dotted key -/
  | dotted
  deriving DecidableEq, Repr

inductive Entry where
  | value (d : Document)
  | table (origin : Origin) (members : List (String × Entry))
  /-- the tables of one array header, the newest first -/
  | tables (elements : List (List (String × Entry)))

abbrev Members := List (String × Entry)

def change (key : String) (f : Option Entry → Option Entry) : Members → Option Members
  | [] => (f none).map fun e => [(key, e)]
  | (k, e) :: r =>
    if k = key then (f (some e)).map fun e => (k, e) :: r
    else (change key f r).map ((k, e) :: ·)

/-- Acts on the table at a path, with the tables above it made where they lack. In an array of
tables the newest counts. A path of a dotted key does not enter tables that a header names. -/
def descend (isDotted : Bool) (act : Origin → Members → Option Members) :
    List String → Origin → Members → Option Members
  | [], origin, ms => act origin ms
  | k :: ks, _, ms =>
    let made := if isDotted then Origin.dotted else .implied
    change k (fun e? => match e? with
      | none => (descend isDotted act ks made []).map (.table made)
      | some (.table origin ms) =>
        if isDotted && origin = .header then none
        else (descend isDotted act ks origin ms).map (.table origin)
      | some (.tables (newest :: r)) =>
        (descend isDotted act ks .header newest).map fun ms => .tables (ms :: r)
      | some _ => none) ms

def addMember (path : List String) (key : String) (d : Document) :
    Origin → Members → Option Members :=
  descend true (fun origin ms =>
    if (origin == .dotted) == path.isEmpty then none
    else change key (fun e? => if e?.isSome then none else some (.value d)) ms) path

def openTable (key : String) : Origin → Members → Option Members :=
  fun _ => change key fun e? => match e? with
    | none => some (.table .header [])
    | some (.table .implied ms) => some (.table .header ms)
    | some _ => none

def openElement (key : String) : Origin → Members → Option Members :=
  fun _ => change key fun e? => match e? with
    | none => some (.tables [[]])
    | some (.tables es) => some (.tables ([] :: es))
    | some _ => none

mutual

def Entry.document : Entry → Document
  | .value d => d
  | .table _ ms => .table (memberDocuments ms)
  | .tables es => .list (elementDocuments es).reverse

def memberDocuments : Members → List (String × Document)
  | [] => []
  | (k, e) :: r => (k, e.document) :: memberDocuments r

def elementDocuments : List Members → List Document
  | [] => []
  | ms :: r => .table (memberDocuments ms) :: elementDocuments r

end

def splitKey (ks : List String) : List String × String :=
  (ks.dropLast, ks.getLast?.getD "")

def inlineTable? (ms : List (List String × Document)) : Option Document :=
  let add (acc : Members) (m : List String × Document) : Option Members :=
    let (path, key) := splitKey m.1
    addMember path key m.2 .header acc
  (ms.foldlM add []).map fun ms => .table (memberDocuments ms)

def word? (w : List Char) (cs : List Char) : Option (List Char) :=
  if w.isPrefixOf cs then some (cs.drop w.length) else none

mutual

/-- A value at a depth, and the rest behind it. Of two nested calls one takes a character, so fuel
for twice the length of the text suffices. -/
def value? (fuel depth : Nat) (cs : List Char) : Reading :=
  match fuel with
  | 0 => none
  | fuel + 1 =>
    match cs with
    | '"' :: _ => (quotedText? cs).map fun (t, r) => (.text (String.ofList t), r)
    | '\'' :: _ => (quotedText? cs).map fun (t, r) => (.text (String.ofList t), r)
    | '[' :: r =>
      if depth + 1 < maxDepth then
        (elements? fuel (depth + 1) r).map fun (xs, r) => (.list xs, r)
      else none
    | '\x7b' :: r =>
      if depth + 1 < maxDepth then do
        let (ms, r) ← match skipBlanks r with
          | '\x7d' :: r => some ([], r)
          | r => members? fuel (depth + 1) r
        (inlineTable? ms).map (·, r)
      else none
    | 't' :: _ => (word? ['t', 'r', 'u', 'e'] cs).map ((.bool true, ·))
    | 'f' :: _ => (word? ['f', 'a', 'l', 's', 'e'] cs).map ((.bool false, ·))
    | _ => scalar cs

/-- The elements up to the closing bracket; a comma may stand behind the last. -/
def elements? (fuel depth : Nat) (cs : List Char) : Option (List Document × List Char) :=
  match fuel with
  | 0 => none
  | fuel + 1 =>
    match skipLines cs.length cs with
    | ']' :: r => some ([], r)
    | r => do
      let (x, r) ← value? fuel depth r
      match skipLines r.length r with
      | ',' :: r => (elements? fuel depth r).map fun (xs, r) => (x :: xs, r)
      | ']' :: r => some ([x], r)
      | _ => none

def members? (fuel depth : Nat) (cs : List Char) :
    Option (List (List String × Document) × List Char) :=
  match fuel with
  | 0 => none
  | fuel + 1 => do
    let (k, r) ← key? cs
    let r ← behindChar? '=' r
    let (x, r) ← value? fuel depth (skipBlanks r)
    match skipBlanks r with
    | ',' :: r => (members? fuel depth r).map fun (ms, r) => ((k, x) :: ms, r)
    | '\x7d' :: r => some ([(k, x)], r)
    | _ => none

end

inductive Statement where
  | member (key : List String) (d : Document)
  | tableHeader (key : List String)
  | elementHeader (key : List String)

def statement? (cs : List Char) : Option (Statement × List Char) :=
  match cs with
  | '[' :: '[' :: r => do
    let (k, r) ← key? r
    let r ← word? [']', ']'] r
    let r ← lineEnd? r
    some (.elementHeader k, r)
  | '[' :: r => do
    let (k, r) ← key? r
    let r ← behindChar? ']' r
    let r ← lineEnd? r
    some (.tableHeader k, r)
  | cs => do
    let (k, r) ← key? cs
    let r ← behindChar? '=' r
    let r := skipBlanks r
    let (x, r) ← value? (2 * r.length + 1) 0 r
    let r ← lineEnd? r
    some (.member k x, r)

def statements? (fuel : Nat) (cs : List Char) : Option (List Statement) :=
  match skipLines cs.length cs with
  | [] => some []
  | '#' :: r => if r.all isPlain then some [] else none
  | r => match fuel with
    | 0 => none
    | fuel + 1 => do
      let (s, r) ← statement? r
      (statements? fuel r).map (s :: ·)

structure Building where
  root : Members
  header : List String

def Building.add (b : Building) : Statement → Option Building
  | .member k d =>
    let (path, key) := splitKey k
    (descend false (addMember path key d) b.header .header b.root).map fun ms => ⟨ms, b.header⟩
  | .tableHeader k =>
    let (path, key) := splitKey k
    (descend false (openTable key) path .header b.root).map fun ms => ⟨ms, k⟩
  | .elementHeader k =>
    let (path, key) := splitKey k
    (descend false (openElement key) path .header b.root).map fun ms => ⟨ms, k⟩

def dropByteOrderMark : List Char → List Char
  | '\ufeff' :: r => r
  | cs => cs

def document? (s : String) : Option Document := do
  let cs := dropByteOrderMark s.toList
  let ss ← statements? cs.length cs
  let b ← ss.foldlM Building.add ⟨[], []⟩
  some (.table (memberDocuments b.root))

end Engraver.Toml
