import Engraver.Command
import Engraver.KeyMap
import Engraver.Number.Binary
import Engraver.Number.Numeral

/-! # Reading lines of code byte by byte

A block is what one line of code says: numbers under letters and the last comment. The reader keeps
what the unfinished line said so far: an open comment, a letter with the numeral behind it, and the
block. A line end hands the block over. A comment and bytes without a meaning may stand anywhere,
even inside a numeral, and do not end it. Realtime bytes act the moment they arrive and never enter
the line.
-/

namespace Engraver

structure Block where
  fields : KeyMap Char Float
  comment : Option String

namespace Block

def empty : Block := ⟨∅, none⟩

instance : Inhabited Block := ⟨empty⟩

def insert (b : Block) (letter : Char) (v : Float) : Block :=
  { b with fields := b.fields.insert letter.toLower v }

def get? (b : Block) (letter : Char) : Option Float :=
  b.fields.get? letter

def contains (b : Block) (letter : Char) : Bool :=
  b.fields.contains letter

def words (b : Block) : List (Char × Float) :=
  b.fields.entries.filter fun e => e.1.isLower

def isEmpty (b : Block) : Bool :=
  b.fields.isEmpty && b.comment.isNone

/-- The number of a letter if it is whole, brought into 64 signed bits. -/
def code? (b : Block) (letter : Char) : Option Int :=
  ((b.get? letter).map Binary.ofFloat).bind fun v =>
    if v.isInteger then some (v.saturate .int64) else none

end Block

inductive RealtimeByte where
  | statusQuery
  | resume
  | pause
  | softReset
  deriving DecidableEq, Repr

namespace RealtimeByte

def toByte : RealtimeByte → UInt8
  | statusQuery => 0x3f
  | resume => 0x7e
  | pause => 0x21
  | softReset => 0x18

def ofByte? (b : UInt8) : Option RealtimeByte :=
  if b = 0x3f then some statusQuery
  else if b = 0x7e then some resume
  else if b = 0x21 then some pause
  else if b = 0x18 then some softReset
  else none

def signal? : RealtimeByte → Option Signal
  | statusQuery => none
  | resume => some .resume
  | pause => some .pause
  | softReset => some .reset

theorem ofByte?_toByte (r : RealtimeByte) : ofByte? r.toByte = some r := by
  cases r <;> rfl

theorem ofByte?_eq_some_iff {b : UInt8} {r : RealtimeByte} : ofByte? b = some r ↔ b = r.toByte := by
  constructor
  · intro h
    simp only [ofByte?] at h
    split at h
    · cases h; assumption
    · split at h
      · cases h; assumption
      · split at h
        · cases h; assumption
        · split at h
          · cases h; assumption
          · cases h
  · rintro rfl
    exact ofByte?_toByte r

end RealtimeByte

inductive ByteKind where
  | lineEnd
  | openComment
  | numeral
  | letter
  | ignored
  deriving DecidableEq, Repr

def byteChar (b : UInt8) : Char :=
  Char.ofNat b.toNat

namespace ByteKind

def isLineEnd (b : UInt8) : Bool :=
  b = 0x0a || b = 0x0d

def ofByte (b : UInt8) : ByteKind :=
  let c := byteChar b
  if isLineEnd b then lineEnd
  else if c = '(' || c = ';' then openComment
  else if c.isDigit || c = '+' || c = '-' || c = '.' then numeral
  else if c.isAlpha then letter
  else ignored

end ByteKind

structure LineReader where
  /-- text of the open comment -/
  openComment : Option String
  letter : Option Char
  numeral : String
  block : Block
  /-- text of the comment closed last, on this line or before -/
  lastComment : Option String

inductive Incoming where
  | realtime (r : RealtimeByte)
  | line (b : Block)

namespace LineReader

def fresh : LineReader where
  openComment := none
  letter := none
  numeral := ""
  block := .empty
  lastComment := none

/-- Puts a letter and its number into the block. A letter without a number, a number without a
letter and a numeral that cannot be read are dropped. -/
def endWord (s : LineReader) : LineReader :=
  let word := s.letter.bind fun l => (Numeral.float? s.numeral.toList).map (l, ·)
  let block := match word with
    | some (l, v) => s.block.insert l v
    | none => s.block
  { s with letter := none, numeral := "", block := block }

def closeComment (s : LineReader) (text : String) : LineReader :=
  { s with
    openComment := none
    lastComment := some text
    block := { s.block with comment := some text } }

def endLine (s : LineReader) : LineReader × Option Incoming :=
  let s := s.endWord
  ({ s with block := .empty }, some (.line s.block))

def feedComment (s : LineReader) (text : String) (b : UInt8) : LineReader × Option Incoming :=
  if b = 0x29 then (s.closeComment text, none)
  else if ByteKind.isLineEnd b then (s.closeComment text).endLine
  else ({ s with openComment := some (text.push (byteChar b)) }, none)

def feedCode (s : LineReader) (b : UInt8) : LineReader × Option Incoming :=
  match ByteKind.ofByte b with
  | .lineEnd => s.endLine
  | .openComment => ({ s with openComment := some "" }, none)
  | .numeral => ({ s with numeral := s.numeral.push (byteChar b) }, none)
  | .letter => ({ s.endWord with letter := some (byteChar b).toLower }, none)
  | .ignored => (s, none)

def feedLine (s : LineReader) (b : UInt8) : LineReader × Option Incoming :=
  match s.openComment with
  | some text => s.feedComment text b
  | none => s.feedCode b

def feed (s : LineReader) (b : UInt8) : LineReader × Option Incoming :=
  match RealtimeByte.ofByte? b with
  | some r => (s, some (.realtime r))
  | none => s.feedLine b

def feedAll (s : LineReader) : List UInt8 → LineReader × List Incoming
  | [] => (s, [])
  | b :: bs =>
    let r := s.feed b
    let t := feedAll r.1 bs
    (t.1, r.2.toList ++ t.2)

theorem feed_realtime (s : LineReader) (r : RealtimeByte) :
    s.feed r.toByte = (s, some (.realtime r)) := by
  simp [feed, RealtimeByte.ofByte?_toByte]

theorem feedAll_append (s : LineReader) (as bs : List UInt8) :
    s.feedAll (as ++ bs) =
      let r := s.feedAll as
      let t := r.1.feedAll bs
      (t.1, r.2 ++ t.2) := by
  induction as generalizing s with
  | nil => simp [feedAll]
  | cons a as ih => simp [feedAll, ih]

end LineReader
end Engraver
