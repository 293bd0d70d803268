import Engraver.Proofs.Grbl.Lines

/-! # Remarks behind a semicolon

A closed comment is remembered, but nothing that is executed depends on it. So a line with a
semicolon runs as the line without the remark. The remark ends where every comment ends: a closing
parenthesis in it makes the rest of the line code again, and without one the line is cut off.
-/

namespace Engraver

namespace Incoming

def withoutComment : Incoming → Incoming
  | realtime r => realtime r
  | line b => line { b with comment := none }

end Incoming

namespace LineReader

def withoutComments (s : LineReader) : LineReader :=
  { s with lastComment := none, block := { s.block with comment := none } }

/-- Two readings that differ at most in closed comments. -/
def SameCode (r r' : LineReader × Option Incoming) : Prop :=
  r.1.withoutComments = r'.1.withoutComments ∧
    r.2.map Incoming.withoutComment = r'.2.map Incoming.withoutComment

variable {s t : LineReader}

theorem withoutComments_endWord (h : s.withoutComments = t.withoutComments) :
    s.endWord.withoutComments = t.endWord.withoutComments := by
  obtain ⟨openComment, letter, numeral, ⟨fields, _⟩, _⟩ := s
  obtain ⟨openComment', letter', numeral', ⟨fields', _⟩, _⟩ := t
  cases h
  unfold endWord
  dsimp only
  split <;> rfl

theorem sameCode_endLine (h : s.withoutComments = t.withoutComments) :
    SameCode s.endLine t.endLine := by
  have hword := withoutComments_endWord h
  exact ⟨congrArg (fun r => { r with block := .empty }) hword,
    congrArg (fun r : LineReader => some (Incoming.line r.block)) hword⟩

theorem sameCode_feedComment (h : s.withoutComments = t.withoutComments) (text : String)
    (b : UInt8) : SameCode (s.feedComment text b) (t.feedComment text b) := by
  have hclosed : (s.closeComment text).withoutComments = (t.closeComment text).withoutComments :=
    congrArg (fun r => { r with openComment := none }) h
  unfold feedComment
  split
  · exact ⟨hclosed, rfl⟩
  · split
    · exact sameCode_endLine hclosed
    · exact ⟨congrArg (fun r => { r with openComment := some (text.push (byteChar b)) }) h, rfl⟩

theorem sameCode_feedCode (h : s.withoutComments = t.withoutComments) (b : UInt8) :
    SameCode (s.feedCode b) (t.feedCode b) := by
  unfold feedCode
  cases ByteKind.ofByte b with
  | lineEnd => exact sameCode_endLine h
  | openComment => exact ⟨congrArg (fun r => { r with openComment := some "" }) h, rfl⟩
  | numeral =>
    exact ⟨congrArg (fun r => { r with numeral := r.numeral.push (byteChar b) }) h, rfl⟩
  | letter =>
    have hword := withoutComments_endWord h
    exact ⟨congrArg (fun r => { r with letter := some (byteChar b).toLower }) hword, rfl⟩
  | ignored => exact ⟨h, rfl⟩

theorem sameCode_feed (h : s.withoutComments = t.withoutComments) (b : UInt8) :
    SameCode (s.feed b) (t.feed b) := by
  have hopen : s.openComment = t.openComment := (congrArg openComment h :)
  unfold feed
  cases RealtimeByte.ofByte? b with
  | some r => exact ⟨h, rfl⟩
  | none =>
    unfold feedLine
    rw [hopen]
    cases t.openComment with
    | some text => exact sameCode_feedComment h text b
    | none => exact sameCode_feedCode h b

theorem feedAll_withoutComments (h : s.withoutComments = t.withoutComments) (bs : List UInt8) :
    (s.feedAll bs).1.withoutComments = (t.feedAll bs).1.withoutComments ∧
      (s.feedAll bs).2.map Incoming.withoutComment =
        (t.feedAll bs).2.map Incoming.withoutComment := by
  induction bs generalizing s t with
  | nil => exact ⟨h, rfl⟩
  | cons b bs ih =>
    obtain ⟨hreader, hhanded⟩ := sameCode_feed h b
    obtain ⟨hlast, hrest⟩ := ih hreader
    refine ⟨hlast, ?_⟩
    simp only [feedAll, List.map_append, ← Option.toList_map, hhanded, hrest]

/-- What is code again behind a remark: all behind its first closing parenthesis. -/
def behindRemark (u : List UInt8) : List UInt8 :=
  (u.dropWhile (· ≠ 0x29)).tail

theorem behindRemark_eq_nil {u : List UInt8} (h : 0x29 ∉ u) : behindRemark u = [] := by
  have hdrop : u.dropWhile (· ≠ 0x29) = [] :=
    List.dropWhile_eq_nil_iff.mpr fun b hb => decide_eq_true fun he => h (he ▸ hb)
  rw [behindRemark, hdrop, List.tail_nil]

theorem behindRemark_append_cons {body : List UInt8} (h : 0x29 ∉ body) (r : List UInt8) :
    behindRemark (body ++ 0x29 :: r) = r := by
  have hbody : ∀ b ∈ body, decide (b ≠ 0x29) = true := fun b hb =>
    decide_eq_true fun he => h (he ▸ hb)
  rw [behindRemark, List.dropWhile_append_of_pos hbody]
  rfl

theorem withoutComments_closeComment (ho : s.openComment = none) (text : String) :
    (s.closeComment text).withoutComments = s.withoutComments := by
  unfold closeComment withoutComments
  rw [ho]

/-- A line with a remark is read as the line without it. -/
theorem feedAll_remark {u : List UInt8} {b : UInt8} (hu : ∀ c ∈ u, LineByte c)
    (hb : ByteKind.isLineEnd b) (ho : s.openComment = none) :
    let marked := s.feedAll (0x3b :: (u ++ [b]))
    let plain := s.feedAll (behindRemark u ++ [b])
    marked.1.withoutComments = plain.1.withoutComments ∧
      marked.2.map Incoming.withoutComment = plain.2.map Incoming.withoutComment := by
  have hsemicolon : LineByte 0x3b := ⟨rfl, rfl⟩
  by_cases hclose : 0x29 ∈ u
  · obtain ⟨body, r, rfl, hbody⟩ := List.eq_append_cons_of_mem hclose
    have hline : ∀ c ∈ body, LineByte c ∧ c ≠ 0x29 := fun c hc =>
      ⟨hu c (List.mem_append_left _ hc), fun he => hbody (he ▸ hc)⟩
    rw [behindRemark_append_cons hbody, List.append_assoc, List.cons_append,
      feedAll_closedComment hsemicolon rfl hline ho]
    exact feedAll_withoutComments (withoutComments_closeComment ho _) (r ++ [b])
  · -- The line end closes the remark and ends the line at once.
    have hline : ∀ c ∈ u, LineByte c ∧ c ≠ 0x29 := fun c hc =>
      ⟨hu c hc, fun he => hclose (he ▸ hc)⟩
    obtain ⟨hrealtime, hparenthesis⟩ := not_realtime_of_isLineEnd hb
    have hmarked : s.feedAll (0x3b :: (u ++ [b])) =
        let r := (s.closeComment (latinText u)).endLine
        (r.1, r.2.toList) := by
      rw [feedAll, feed_opensComment hsemicolon rfl ho]
      dsimp only
      rw [feedAll_append, feedAll_comment hline { s with openComment := some "" } [] rfl]
      dsimp only
      rw [feedAll, feed, hrealtime]
      dsimp only
      rw [feedLine]
      dsimp only
      rw [feedComment, if_neg hparenthesis, if_pos hb]
      exact Prod.ext rfl (List.append_nil _)
    have hplain : s.feedAll [b] =
        let r := s.endLine
        (r.1, r.2.toList) := by
      rw [feedAll, feed, hrealtime]
      dsimp only
      rw [feedLine, ho]
      dsimp only
      rw [feedCode, ofByte_of_isLineEnd hb]
      exact Prod.ext rfl (List.append_nil _)
    obtain ⟨hreader, hhanded⟩ :=
      sameCode_endLine (withoutComments_closeComment ho (latinText u))
    rw [behindRemark_eq_nil hclose, List.nil_append, hmarked, hplain]
    refine ⟨hreader, ?_⟩
    simp only [← Option.toList_map, hhanded]

end LineReader

namespace Modes

theorem calls_withoutComment (m : Modes) (signs : AxisSigns) (is : List Incoming) :
    m.calls signs (is.map Incoming.withoutComment) = m.calls signs is := by
  induction is generalizing m with
  | nil => rfl
  | cons i is ih =>
    cases i with
    | realtime r => exact congrArg (m.callsFor signs (.realtime r) ++ ·) (ih m)
    | line b => exact congrArg (m.callsFor signs (.line b) ++ ·) (ih (m.after b))

end Modes

namespace Emulator

def withoutComments (e : Emulator) : Emulator :=
  { e with reader := e.reader.withoutComments }

/-- Two streams make the same calls of the machine and leave the same behind, but for the comments
that were closed. -/
structure RunsAs (e : Emulator) (as bs : List UInt8) : Prop where
  calls : e.calls as = e.calls bs
  state : (e.write as).withoutComments = (e.write bs).withoutComments

variable {e : Emulator} {as bs cs : List UInt8}

theorem RunsAs.symm (h : e.RunsAs as bs) : e.RunsAs bs as := ⟨h.calls.symm, h.state.symm⟩

theorem RunsAs.trans (h : e.RunsAs as bs) (h' : e.RunsAs bs cs) : e.RunsAs as cs :=
  ⟨h.calls.trans h'.calls, h.state.trans h'.state⟩

theorem RunsAs.behind {before : List UInt8} (h : (e.write before).RunsAs as bs) :
    e.RunsAs (before ++ as) (before ++ bs) := by
  constructor
  · rw [calls_append, calls_append, h.calls]
  · rw [write_append, write_append, h.state]

theorem receiveAll_withoutComment (e : Emulator) (is : List Incoming) :
    e.receiveAll (is.map Incoming.withoutComment) = e.receiveAll is := by
  induction is generalizing e with
  | nil => rfl
  | cons i is ih => cases i <;> exact ih _

theorem runsAs_of_feedAll
    (h : (e.reader.feedAll as).1.withoutComments = (e.reader.feedAll bs).1.withoutComments ∧
      (e.reader.feedAll as).2.map Incoming.withoutComment =
        (e.reader.feedAll bs).2.map Incoming.withoutComment) : e.RunsAs as bs := by
  obtain ⟨hreader, hhanded⟩ := h
  constructor
  · unfold calls
    rw [← Modes.calls_withoutComment, hhanded, Modes.calls_withoutComment]
  · have hreceived : e.receiveAll (e.reader.feedAll as).2 =
        e.receiveAll (e.reader.feedAll bs).2 := by
      rw [← receiveAll_withoutComment, hhanded, receiveAll_withoutComment]
    unfold withoutComments
    simp only [write_eq, hreceived, hreader]

theorem runsAs_remark {before u : List UInt8} {b : UInt8}
    (ho : (e.write before).reader.openComment = none) (hu : ∀ c ∈ u, LineByte c)
    (hb : ByteKind.isLineEnd b) :
    e.RunsAs (before ++ 0x3b :: (u ++ [b])) (before ++ (LineReader.behindRemark u ++ [b])) :=
  .behind (runsAs_of_feedAll (LineReader.feedAll_remark hu hb ho))

/-- A remark without a closing parenthesis runs to the end of its line: two of them do the same, and
the same as the line cut off before the semicolon. Any remark runs up to its first closing
parenthesis, and the line goes on behind that. -/
theorem remark_runs_to_end (e : Emulator) {before : List UInt8} {b : UInt8}
    (ho : (e.write before).reader.openComment = none) (hb : ByteKind.isLineEnd b) :
    (∀ u v : List UInt8, (∀ c ∈ u, LineByte c ∧ c ≠ 0x29) → (∀ c ∈ v, LineByte c ∧ c ≠ 0x29) →
      e.RunsAs (before ++ 0x3b :: (u ++ [b])) (before ++ 0x3b :: (v ++ [b])) ∧
      e.RunsAs (before ++ 0x3b :: (u ++ [b])) (before ++ [b])) ∧
    ∀ u : List UInt8, (∀ c ∈ u, LineByte c) →
      e.RunsAs (before ++ 0x3b :: (u ++ [b])) (before ++ (LineReader.behindRemark u ++ [b])) := by
  have hcut : ∀ u : List UInt8, (∀ c ∈ u, LineByte c ∧ c ≠ 0x29) →
      e.RunsAs (before ++ 0x3b :: (u ++ [b])) (before ++ [b]) := by
    intro u hu
    have hrun := runsAs_remark ho (fun c hc => (hu c hc).1) hb
    rwa [LineReader.behindRemark_eq_nil fun hc => (hu _ hc).2 rfl] at hrun
  exact ⟨fun u v hu hv => ⟨(hcut u hu).trans (hcut v hv).symm, hcut u hu⟩,
    fun u hu => runsAs_remark ho hu hb⟩

theorem remark_runs_to_end_in_number :
    let e := start .default (.fresh true)
    let before := "G1 (edge) X1".toUTF8.toList
    let u := " to (the; right G0 Y9".toUTF8.toList
    let v := "5".toUTF8.toList
    (e.write before).reader.openComment = none ∧
      e.RunsAs (before ++ 0x3b :: (u ++ [0x0a])) (before ++ 0x3b :: (v ++ [0x0a])) ∧
      e.RunsAs (before ++ 0x3b :: (u ++ [0x0a])) (before ++ [0x0a]) := by
  intro e before u v
  have ho : (e.write before).reader.openComment = none := by decide +kernel
  have hrun := (remark_runs_to_end e ho (b := 0x0a) rfl).1 u v (by decide +kernel)
    (by decide +kernel)
  exact ⟨ho, hrun⟩

/-- A closing parenthesis in a remark lets what stands behind it move the machine. -/
theorem remark_runs_to_end_ne :
    let e := start .default (.fresh true)
    let u := " see (note) G1 X5".toUTF8.toList
    (∀ c ∈ u, LineByte c) ∧
      (Call.commands (e.calls (0x3b :: (u ++ [0x0a])))).map Command.name =
        ["mode_compact", "move"] ∧
      Call.commands (e.calls [0x3b, 0x0a]) = [] ∧ Call.commands (e.calls [0x0a]) = [] ∧
      (e.write (0x3b :: (u ++ [0x0a]))).modes.motion ≠ (e.write [0x3b, 0x0a]).modes.motion := by
  decide +kernel

end Emulator
end Engraver
