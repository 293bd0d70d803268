import Mathlib.Data.List.Induction
import Engraver.Proofs.Grbl.Lines

/-! # Replies of the emulator

A reply that waits in the slot, or was taken out of it, changes nothing that happens later. A line
end and a status query put a reply into the slot, in place of the one before; no other byte does.
-/

namespace Engraver

namespace LineReader

theorem exists_feedLine_eq (s : LineReader) (b : UInt8) :
    ∃ block, (s.feedLine b).2 = if ByteKind.isLineEnd b then some (.line block) else none := by
  cases hb : ByteKind.isLineEnd b with
  | true =>
    have hparen : b ≠ 0x29 := by
      rintro rfl
      cases hb
    unfold feedLine
    split
    · rw [feedComment, if_neg hparen, if_pos hb]
      exact ⟨_, rfl⟩
    · rw [feedCode, ofByte_of_isLineEnd hb]
      exact ⟨_, rfl⟩
  | false =>
    refine ⟨.empty, ?_⟩
    unfold feedLine
    split
    · rw [feedComment, if_neg (Bool.eq_false_iff.mp hb)]
      split <;> rfl
    · cases ho : LineParts.opensComment b with
      | true => rw [feedCode, ofByte_of_opensComment ho]; rfl
      | false => exact (s.feedCode_keeps hb ho).1

end LineReader

namespace Emulator

variable {e e' : Emulator}

theorem eq_of_read_eq (h : e.read.2 = e'.read.2) : e' = { e with reply := e'.reply } := by
  change e' = { e.read.2 with reply := e'.reply }
  rw [h]
  rfl

theorem read_writeByte_reply (e : Emulator) (r : Option String) (b : UInt8) :
    (writeByte { e with reply := r } b).read.2 = (e.writeByte b).read.2 := by
  unfold writeByte
  dsimp only
  cases (e.reader.feed b).2 with
  | none => rfl
  | some i =>
    cases i with
    | realtime k => cases k <;> rfl
    | line block => rfl

theorem read_write_congr (h : e.read.2 = e'.read.2) (bs : List UInt8) :
    (e.write bs).read.2 = (e'.write bs).read.2 := by
  induction bs generalizing e e' with
  | nil => exact h
  | cons b bs ih =>
    refine ih ?_
    rw [eq_of_read_eq h]
    exact (e.read_writeByte_reply e'.reply b).symm

theorem calls_congr (h : e.read.2 = e'.read.2) (bs : List UInt8) : e.calls bs = e'.calls bs := by
  rw [eq_of_read_eq h]
  rfl

def isAnswered (b : UInt8) : Bool :=
  ByteKind.isLineEnd b || b = RealtimeByte.statusQuery.toByte

/-- The last byte that is answered is a line end. -/
def endsAcknowledged (bs : List UInt8) : Bool :=
  (bs.reverse.find? isAnswered).any ByteKind.isLineEnd

theorem endsAcknowledged_concat (bs : List UInt8) (b : UInt8) :
    endsAcknowledged (bs ++ [b]) =
      if isAnswered b then ByteKind.isLineEnd b else endsAcknowledged bs := by
  rw [endsAcknowledged, List.reverse_concat, List.find?_cons]
  cases isAnswered b <;> rfl

theorem reply_writeByte (e : Emulator) (b : UInt8) :
    (e.writeByte b).reply =
      if ByteKind.isLineEnd b then some acknowledgement
      else if b = RealtimeByte.statusQuery.toByte then some e.report.format else e.reply := by
  cases hb : RealtimeByte.ofByte? b with
  | some r =>
    obtain rfl := RealtimeByte.ofByte?_eq_some_iff.mp hb
    unfold writeByte
    rw [LineReader.feed_realtime]
    cases r <;> rfl
  | none =>
    have hquery : b ≠ RealtimeByte.statusQuery.toByte := by
      rintro rfl
      rw [RealtimeByte.ofByte?_toByte] at hb
      cases hb
    obtain ⟨block, hfeed⟩ := e.reader.exists_feedLine_eq b
    have hfeed : (e.reader.feed b).2 =
        if ByteKind.isLineEnd b then some (.line block) else none := by
      rw [LineReader.feed, hb]
      exact hfeed
    unfold writeByte
    dsimp only
    rw [hfeed, if_neg hquery]
    cases ByteKind.isLineEnd b <;> rfl

theorem format_ne_acknowledgement (r : StatusReport) : r.format ≠ acknowledgement := by
  intro h
  have hhead : r.format.toList.head? = acknowledgement.toList.head? := by rw [h]
  delta StatusReport.format at hhead
  simp only [String.toList_append, List.append_assoc] at hhead
  change some '<' = some 'o' at hhead
  cases hhead

/-- After a chunk an acknowledgement waits if and only if a line end was answered last. -/
theorem reply_write_eq_acknowledgement_iff (h : e.reply ≠ some acknowledgement)
    (bs : List UInt8) :
    (e.write bs).reply = some acknowledgement ↔ endsAcknowledged bs := by
  induction bs using List.reverseRecOn with
  | nil => simpa [endsAcknowledged] using h
  | append_singleton bs b ih =>
    rw [write_append, write_cons, write_nil, reply_writeByte, endsAcknowledged_concat]
    cases hb : ByteKind.isLineEnd b with
    | true => simp [isAnswered, hb]
    | false =>
      by_cases hq : b = RealtimeByte.statusQuery.toByte
      · simp [isAnswered, hq, format_ne_acknowledgement]
      · simpa [isAnswered, hb, hq] using ih

end Emulator
end Engraver
