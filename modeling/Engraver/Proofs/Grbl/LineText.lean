import Engraver.Grbl.LineReader
import Engraver.Proofs.Number.Decimal

/-! # Whole lines of code

What a stream says when it is read by whole lines: realtime bytes are deleted, the rest is cut at
line ends, each line is parted at its comments, and its code is grouped into letters with the text
behind them. Nothing is carried from one byte to the next.
-/

namespace Engraver

def latinText (bs : List UInt8) : String :=
  String.ofList (bs.map byteChar)

/-- A line parted at its comments. -/
structure LineParts where
  code : List UInt8
  closed : List (List UInt8)
  /-- the comment that is open at the end -/
  rest? : Option (List UInt8)

namespace LineParts

def opensComment (b : UInt8) : Bool :=
  b = 0x28 || b = 0x3b

/-- A comment runs up to and including the next closing parenthesis, or to the end. -/
def ofLine : List UInt8 → LineParts
  | [] => ⟨[], [], none⟩
  | b :: bs =>
    if opensComment b then
      match _h : bs.dropWhile (· ≠ 0x29) with
      | [] => ⟨[], [], some bs⟩
      | _ :: r =>
        let p := ofLine r
        { p with closed := bs.takeWhile (· ≠ 0x29) :: p.closed }
    else
      let p := ofLine bs
      { p with code := b :: p.code }
termination_by bs => bs.length
decreasing_by
  · have := List.length_dropWhile_le (· ≠ 0x29) bs
    simp only [_h, List.length_cons] at this ⊢
    omega
  · simp

/-- All comments of a finished line: its end closes the one that is open. -/
def comments (p : LineParts) : List (List UInt8) :=
  p.closed ++ p.rest?.toList

end LineParts

namespace LineText

/-- The characters of code that mean something: letters, digits, signs and points. -/
def codeText (code : List UInt8) : List Char :=
  (code.map byteChar).filter fun c => c.isAlpha || Numeral.isNumeralChar c

/-- Each letter, in lower case, with the text up to the next letter. -/
def words : List Char → List (Char × List Char)
  | [] => []
  | c :: cs =>
    if c.isAlpha then (c.toLower, cs.takeWhile (!·.isAlpha)) :: words cs else words cs

/-- The letters whose text is a decimal, with its value. -/
def keptWords (ws : List (Char × List Char)) : List (Char × Float) :=
  ws.filterMap fun w =>
    if Numeral.isDecimal w.2 then some (w.1, Numeral.decimalValue w.2) else none

/-- What a finished line says: the last number of each letter and the last comment. -/
def lineBlock (l : List UInt8) : Block :=
  let p := LineParts.ofLine l
  { fields := .ofList (keptWords (words (codeText p.code)))
    comment := p.comments.getLast?.map latinText }

theorem get?_lineBlock (l : List UInt8) (letter : Char) :
    (lineBlock l).get? letter =
      ((keptWords (words (codeText (LineParts.ofLine l).code))).filter
        fun w => w.1 = letter).getLast?.map (·.2) :=
  KeyMap.get?_ofList _ letter

/-- The lines of a stream without its realtime bytes; the last one is unfinished. -/
def lines (bs : List UInt8) : List (List UInt8) :=
  (bs.filter fun b => (RealtimeByte.ofByte? b).isNone).splitOnP ByteKind.isLineEnd

def finished (bs : List UInt8) : List (List UInt8) :=
  (lines bs).dropLast

def unfinished (bs : List UInt8) : List UInt8 :=
  (lines bs).getLastD []

def finishedComments (bs : List UInt8) : List (List UInt8) :=
  (finished bs).flatMap fun l => (LineParts.ofLine l).comments

def closedComments (bs : List UInt8) : List (List UInt8) :=
  finishedComments bs ++ (LineParts.ofLine (unfinished bs)).closed

/-- The comment of a stream closed last. -/
def lastComment (bs : List UInt8) : Option String :=
  (closedComments bs).getLast?.map latinText

end LineText
end Engraver
