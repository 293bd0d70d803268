import Engraver.Proofs.Grbl.CodeWords
import Engraver.Proofs.Grbl.Realtime

/-! # Reading byte by byte is reading whole lines

Between two lines the reader remembers the last comment only. From there the bytes of a line leave
it with what the parts of the line say, and a line end hands over the block of the whole line. So
the blocks of a stream are those of its finished lines, whatever the bytes are.
-/

namespace Engraver

def LineByte (b : UInt8) : Prop :=
  RealtimeByte.ofByte? b = none ∧ ByteKind.isLineEnd b = false

instance (b : UInt8) : Decidable (LineByte b) :=
  inferInstanceAs (Decidable (_ ∧ _))

namespace LineParts

variable {b c : UInt8} {bs body r : List UInt8}

theorem ofLine_cons_of_code (h : opensComment b = false) (bs : List UInt8) :
    ofLine (b :: bs) = { ofLine bs with code := b :: (ofLine bs).code } := by
  rw [ofLine, if_neg (by simp [h])]

theorem ofLine_open (h : opensComment b) (hd : bs.dropWhile (· ≠ 0x29) = []) :
    ofLine (b :: bs) = ⟨[], [], some bs⟩ := by
  rw [ofLine, if_pos h]
  split
  · rfl
  · next he => rw [hd] at he; cases he

theorem ofLine_closed (h : opensComment b) (hd : bs.dropWhile (· ≠ 0x29) = c :: r) :
    ofLine (b :: bs) =
      { ofLine r with closed := bs.takeWhile (· ≠ 0x29) :: (ofLine r).closed } := by
  rw [ofLine, if_pos h]
  split
  · next he => rw [hd] at he; cases he
  · next he => rw [hd] at he; cases he; rfl

theorem eq_append_of_dropWhile (hd : bs.dropWhile (· ≠ 0x29) = c :: r) :
    bs = bs.takeWhile (· ≠ 0x29) ++ 0x29 :: r := by
  have hc : c = 0x29 := by
    have hn := List.head?_dropWhile_not (· ≠ (0x29 : UInt8)) bs
    rw [hd] at hn
    simpa using hn
  have h := List.takeWhile_append_dropWhile (p := (· ≠ (0x29 : UInt8))) (l := bs)
  rw [hd, hc] at h
  exact h.symm

end LineParts

def latest (cs : List (List UInt8)) (before : Option String) : Option String :=
  cs.foldl (fun _ c => some (latinText c)) before

theorem latest_append (cs ds : List (List UInt8)) (before : Option String) :
    latest (cs ++ ds) before = latest ds (latest cs before) :=
  List.foldl_append

theorem latest_eq (cs : List (List UInt8)) (before : Option String) :
    latest cs before = (cs.getLast?.map latinText).or before := by
  induction cs generalizing before with
  | nil => rfl
  | cons c cs ih =>
    change latest cs (some (latinText c)) = _
    rw [ih, List.getLast?_cons]
    cases cs.getLast? <;> rfl

theorem latest_none (cs : List (List UInt8)) : latest cs none = cs.getLast?.map latinText := by
  rw [latest_eq, Option.or_none]

theorem codeText_cons (b : UInt8) (bs : List UInt8) :
    LineText.codeText (b :: bs) = LineText.codeText [b] ++ LineText.codeText bs :=
  List.filter_append [byteChar b] (bs.map byteChar)

theorem latinText_append (bs : List UInt8) (b : UInt8) :
    latinText (bs ++ [b]) = (latinText bs).push (byteChar b) := by
  rw [← String.toList_inj, String.toList_push, latinText, latinText, String.toList_ofList,
    String.toList_ofList, List.map_append, List.map_singleton]

namespace LineReader

open LineText

variable {s : LineReader} {b : UInt8}

theorem feed_of_lineByte (s : LineReader) (h : LineByte b) : s.feed b = s.feedLine b := by
  rw [feed, h.1]

theorem endWord_keeps (s : LineReader) :
    s.endWord.openComment = s.openComment ∧ s.endWord.lastComment = s.lastComment ∧
      s.endWord.block.comment = s.block.comment := by
  refine ⟨rfl, rfl, ?_⟩
  unfold endWord
  dsimp only
  split <;> rfl

theorem feedCode_keeps (s : LineReader) (hl : ByteKind.isLineEnd b = false)
    (ho : LineParts.opensComment b = false) :
    (s.feedCode b).2 = none ∧ (s.feedCode b).1.openComment = s.openComment ∧
      (s.feedCode b).1.lastComment = s.lastComment ∧
      (s.feedCode b).1.block.comment = s.block.comment := by
  unfold feedCode
  rw [ofByte_of_code hl ho]
  cases Numeral.isNumeralChar (byteChar b) with
  | true => exact ⟨rfl, rfl, rfl, rfl⟩
  | false =>
    cases (byteChar b).isAlpha with
    | true => exact ⟨rfl, s.endWord_keeps⟩
    | false => exact ⟨rfl, rfl, rfl, rfl⟩

theorem feedAll_comment {body : List UInt8} (hb : ∀ b ∈ body, LineByte b ∧ b ≠ 0x29)
    (s : LineReader) (text : List UInt8) (ho : s.openComment = some (latinText text)) :
    s.feedAll body = ({ s with openComment := some (latinText (text ++ body)) }, []) := by
  induction body generalizing s text with
  | nil =>
    rw [List.append_nil, ← ho]
    rfl
  | cons b body ih =>
    obtain ⟨hline, hparen⟩ := hb b List.mem_cons_self
    have hfeed : s.feed b = ({ s with openComment := some (latinText (text ++ [b])) }, none) := by
      rw [s.feed_of_lineByte hline, feedLine, ho, latinText_append]
      dsimp only
      rw [feedComment, if_neg hparen, if_neg (by simp [hline.2])]
    rw [feedAll, hfeed]
    dsimp only
    rw [ih (fun c hc => hb c (List.mem_cons_of_mem _ hc)) _ (text ++ [b]) rfl, List.append_assoc]
    rfl

theorem feed_opensComment (h : LineByte b) (hb : LineParts.opensComment b)
    (ho : s.openComment = none) : s.feed b = ({ s with openComment := some "" }, none) := by
  rw [s.feed_of_lineByte h, feedLine, ho]
  dsimp only
  rw [feedCode, ofByte_of_opensComment hb]

theorem feed_code (h : LineByte b) (ho : s.openComment = none) : s.feed b = s.feedCode b := by
  rw [s.feed_of_lineByte h, feedLine, ho]

theorem feed_closesComment {text : String} (ho : s.openComment = some text) :
    s.feed 0x29 = (s.closeComment text, none) := by
  rw [s.feed_of_lineByte ⟨rfl, rfl⟩, feedLine, ho]
  rfl

theorem feedAll_closedComment {body r : List UInt8} (h : LineByte b)
    (hb : LineParts.opensComment b) (hbody : ∀ c ∈ body, LineByte c ∧ c ≠ 0x29)
    (ho : s.openComment = none) :
    s.feedAll (b :: (body ++ 0x29 :: r)) = (s.closeComment (latinText body)).feedAll r := by
  have hcomment := feedAll_comment hbody { s with openComment := some "" } [] rfl
  have hclose := feed_closesComment (s := { s with openComment := some (latinText body) }) rfl
  rw [feedAll, feed_opensComment h hb ho]
  dsimp only
  rw [feedAll_append, hcomment]
  dsimp only
  rw [feedAll, List.nil_append, hclose]
  rfl

/-- The bytes of a line that parts into `p` take the reader from `s` to `r`. -/
structure Reads (s r : LineReader) (p : LineParts) : Prop where
  openComment : r.openComment = p.rest?.map latinText
  lastComment : r.lastComment = latest p.closed s.lastComment
  comment : r.block.comment = latest p.closed s.block.comment
  fieldsAfter (cs : List Char) : r.fieldsAfter cs = s.fieldsAfter (codeText p.code ++ cs)

theorem feedAll_lineBytes {l : List UInt8} (hl : ∀ b ∈ l, LineByte b) (s : LineReader)
    (ho : s.openComment = none) :
    (s.feedAll l).2 = [] ∧ Reads s (s.feedAll l).1 (.ofLine l) := by
  -- The cases are those of the parting: nothing, a comment left open, one closed, a byte of code.
  induction l using LineParts.ofLine.induct generalizing s with
  | case1 =>
    rw [LineParts.ofLine]
    exact ⟨rfl, ho, rfl, rfl, fun _ => rfl⟩
  | case2 b bs hb hd =>
    have hbody : ∀ c ∈ bs, LineByte c ∧ c ≠ 0x29 := fun c hc =>
      ⟨hl c (List.mem_cons_of_mem _ hc), by simpa using List.dropWhile_eq_nil_iff.mp hd c hc⟩
    have hcomment := feedAll_comment hbody { s with openComment := some "" } [] rfl
    rw [feedAll, feed_opensComment (hl b List.mem_cons_self) hb ho, LineParts.ofLine_open hb hd]
    dsimp only
    rw [hcomment]
    exact ⟨rfl, rfl, rfl, rfl, fun _ => rfl⟩
  | case3 b bs hb c r hd ih =>
    have hbs := LineParts.eq_append_of_dropWhile hd
    have hbody : ∀ c ∈ bs.takeWhile (· ≠ 0x29), LineByte c ∧ c ≠ 0x29 := fun c hc =>
      ⟨hl c (List.mem_cons_of_mem _ ((List.takeWhile_sublist _).mem hc)),
        by simpa using List.mem_takeWhile_imp hc⟩
    have hr : ∀ c ∈ r, LineByte c := fun c hc => hl c (List.mem_cons_of_mem _ (by
      rw [hbs]
      exact List.mem_append_right _ (List.mem_cons_of_mem _ hc)))
    have hfeed := (congrArg (fun l => s.feedAll (b :: l)) hbs).trans
      (feedAll_closedComment (hl b List.mem_cons_self) hb hbody ho)
    obtain ⟨hhanded, hreads⟩ := ih hr (s.closeComment _) rfl
    rw [LineParts.ofLine_closed hb hd, hfeed]
    exact ⟨hhanded, hreads.openComment, hreads.lastComment, hreads.comment, hreads.fieldsAfter⟩
  | case4 b bs hb ih =>
    have hcode := Bool.eq_false_iff.mpr hb
    have hline := hl b List.mem_cons_self
    obtain ⟨hnone, hopen, hlast, hcomment⟩ := s.feedCode_keeps hline.2 hcode
    obtain ⟨hhanded, hreads⟩ := ih (fun c hc => hl c (List.mem_cons_of_mem _ hc))
      (s.feedCode b).1 (hopen.trans ho)
    rw [feedAll, feed_code hline ho, LineParts.ofLine_cons_of_code hcode]
    refine ⟨by rw [hnone, hhanded]; rfl, hreads.openComment, ?_, ?_, fun cs => ?_⟩
    · rw [← hlast]
      exact hreads.lastComment
    · rw [← hcomment]
      exact hreads.comment
    · change _ = s.fieldsAfter (codeText (b :: (LineParts.ofLine bs).code) ++ cs)
      rw [hreads.fieldsAfter, s.fieldsAfter_feedCode hline.2 hcode, codeText_cons b
        (LineParts.ofLine bs).code, List.append_assoc]

def between (lastComment : Option String) : LineReader :=
  { fresh with lastComment := lastComment }

theorem endLine_eq (ho : s.openComment = none) :
    s.endLine = (between s.lastComment, some (.line ⟨s.fieldsAfter [], s.block.comment⟩)) := by
  rw [← fields_endWord, ← s.endWord_keeps.2.2, between, fresh, ← ho]
  rfl

theorem not_realtime_of_isLineEnd (h : ByteKind.isLineEnd b) :
    RealtimeByte.ofByte? b = none ∧ b ≠ 0x29 := by
  rw [ByteKind.isLineEnd, Bool.or_eq_true, decide_eq_true_iff, decide_eq_true_iff] at h
  rcases h with rfl | rfl <;> decide

theorem feed_lineEnd (h : ByteKind.isLineEnd b) {before : Option String} {r : LineReader}
    {p : LineParts} (hr : Reads (between before) r p) :
    r.feed b = (between (latest p.comments before), some (.line
      { fields := insertWords ∅ (words (codeText p.code))
        comment := latest p.comments none })) := by
  have hfields : r.fieldsAfter [] = insertWords ∅ (words (codeText p.code)) := by
    rw [hr.fieldsAfter, List.append_nil]
    rfl
  have hrealtime := not_realtime_of_isLineEnd h
  have hopen := hr.openComment
  rw [feed, hrealtime.1, LineParts.comments]
  dsimp only
  rw [feedLine, hopen, latest_append, latest_append]
  cases hp : p.rest? with
  | none =>
    rw [hp] at hopen
    dsimp only [Option.map_none]
    rw [feedCode, ofByte_of_isLineEnd h]
    dsimp only
    rw [endLine_eq hopen, hr.lastComment, hr.comment, hfields]
    rfl
  | some text =>
    dsimp only [Option.map_some]
    rw [feedComment, if_neg hrealtime.2, if_pos h, endLine_eq rfl]
    change (_, some (Incoming.line ⟨r.fieldsAfter [], _⟩)) = _
    rw [hfields]
    rfl

theorem lineBlock_eq (l : List UInt8) :
    lineBlock l =
      { fields := insertWords ∅ (words (codeText (LineParts.ofLine l).code))
        comment := latest (LineParts.ofLine l).comments none } := by
  rw [lineBlock, insertWords_words, latest_none]

theorem feedAll_finished {l : List UInt8} (hl : ∀ b ∈ l, LineByte b) (h : ByteKind.isLineEnd b)
    (before : Option String) (bs : List UInt8) :
    (between before).feedAll (l ++ b :: bs) =
      let t := (between (latest (LineParts.ofLine l).comments before)).feedAll bs
      (t.1, .line (lineBlock l) :: t.2) := by
  obtain ⟨hhanded, hreads⟩ := feedAll_lineBytes hl (between before) rfl
  have hend : ((between before).feedAll l).1.feedAll (b :: bs) =
      let t := (between (latest (LineParts.ofLine l).comments before)).feedAll bs
      (t.1, .line (lineBlock l) :: t.2) := by
    rw [feedAll, feed_lineEnd h hreads, ← lineBlock_eq]
    rfl
  rw [feedAll_append]
  dsimp only
  rw [hhanded, hend]
  rfl

/-- Reading whole lines of which the last one is unfinished: the others hand over their blocks,
and the last one is read as from the start of a line. -/
def readLines (before : Option String) (ls : List (List UInt8)) : LineReader × List Incoming :=
  let comments := ls.dropLast.flatMap fun l => (LineParts.ofLine l).comments
  (((between (latest comments before)).feedAll (ls.getLastD [])).1,
    ls.dropLast.map fun l => .line (lineBlock l))

theorem readLines_cons {ls : List (List UInt8)} (h : ls ≠ []) (before : Option String)
    (l : List UInt8) :
    readLines before (l :: ls) =
      let t := readLines (latest (LineParts.ofLine l).comments before) ls
      (t.1, .line (lineBlock l) :: t.2) := by
  obtain ⟨k, ls, rfl⟩ := List.exists_cons_of_ne_nil h
  unfold readLines
  rw [List.dropLast_cons_of_ne_nil h, List.flatMap_cons]
  dsimp only
  rw [latest_append]
  rfl

theorem feedAll_eq_readLines {bs : List UInt8} (hbs : ∀ b ∈ bs, RealtimeByte.ofByte? b = none)
    {l : List UInt8} (hl : ∀ b ∈ l, LineByte b) (before : Option String) :
    (between before).feedAll (l ++ bs) =
      readLines before ((l ++ bs).splitOnP ByteKind.isLineEnd) := by
  -- The line at hand grows in front of the stream until a line end cuts it off.
  induction bs generalizing l before with
  | nil =>
    rw [List.append_nil, List.splitOnP_eq_singleton fun b hb => (hl b hb).2]
    exact Prod.ext rfl (feedAll_lineBytes hl (between before) rfl).1
  | cons b bs ih =>
    have hrest : ∀ c ∈ bs, RealtimeByte.ofByte? c = none := fun c hc =>
      hbs c (List.mem_cons_of_mem _ hc)
    cases hb : ByteKind.isLineEnd b with
    | true =>
      rw [List.splitOnP_append_cons_of_forall_mem (fun b hb => (hl b hb).2) b hb,
        readLines_cons (List.splitOnP_ne_nil _ _), feedAll_finished hl hb]
      have hih := ih hrest (l := []) (fun c hc => nomatch hc)
      dsimp only
      rw [← List.nil_append bs, hih, List.nil_append]
    | false =>
      have hline : ∀ c ∈ l ++ [b], LineByte c := by
        intro c hc
        rcases List.mem_append.mp hc with hc | hc
        · exact hl c hc
        · obtain rfl := List.mem_singleton.mp hc
          exact ⟨hbs c List.mem_cons_self, hb⟩
      have hih := ih hrest hline before
      rwa [List.append_assoc, List.singleton_append] at hih

theorem lineByte_of_mem_splitOnP {bs : List UInt8}
    (hbs : ∀ b ∈ bs, RealtimeByte.ofByte? b = none) {l : List UInt8}
    (hl : l ∈ bs.splitOnP ByteKind.isLineEnd) : ∀ b ∈ l, LineByte b := by
  induction bs generalizing l with
  | nil =>
    obtain rfl : l = [] := by simpa using hl
    exact fun b hb => nomatch hb
  | cons c bs ih =>
    have ih := fun l => ih (l := l) fun b hb => hbs b (List.mem_cons_of_mem _ hb)
    obtain ⟨k, ls, hls⟩ := List.exists_cons_of_ne_nil (List.splitOnP_ne_nil ByteKind.isLineEnd bs)
    rw [List.splitOnP_cons_eq_if_modifyHead, hls] at hl
    rw [hls] at ih
    cases hc : ByteKind.isLineEnd c with
    | true =>
      rw [if_pos hc] at hl
      rcases List.mem_cons.mp hl with rfl | hl
      · exact fun b hb => nomatch hb
      · exact ih l hl
    | false =>
      rw [if_neg (Bool.eq_false_iff.mp hc), List.modifyHead_cons] at hl
      rcases List.mem_cons.mp hl with rfl | hl
      · intro b hb
        rcases List.mem_cons.mp hb with rfl | hb
        · exact ⟨hbs b List.mem_cons_self, hc⟩
        · exact ih k List.mem_cons_self b hb
      · exact ih l (List.mem_cons_of_mem _ hl)

/-- Realtime bytes in a stream change neither the unfinished line nor the blocks. -/
theorem feedAll_filter (s : LineReader) (bs : List UInt8) :
    let code := bs.filter fun b => (RealtimeByte.ofByte? b).isNone
    (s.feedAll bs).1 = (s.feedAll code).1 ∧
      (s.feedAll bs).2.filterMap Incoming.block? =
        (s.feedAll code).2.filterMap Incoming.block? := by
  intro code
  obtain ⟨hreader, hincoming⟩ := feedAll_shuffle (RealtimeByte.shuffle_filter bs) s
  have hblocks := hincoming.filterMap Incoming.block?
  rw [Incoming.block?_realtime] at hblocks
  exact ⟨hreader, hblocks.eq_of_right_nil⟩

end LineReader

namespace LineText

variable (bs : List UInt8)

theorem ofByte?_of_mem_filter :
    ∀ b ∈ bs.filter fun b => (RealtimeByte.ofByte? b).isNone, RealtimeByte.ofByte? b = none := by
  intro b hb
  simpa using (List.mem_filter.mp hb).2

theorem lineByte_of_mem_unfinished : ∀ b ∈ unfinished bs, LineByte b := by
  have hne := List.splitOnP_ne_nil ByteKind.isLineEnd
    (bs.filter fun b => (RealtimeByte.ofByte? b).isNone)
  rw [unfinished, lines, List.getLastD_eq_getLast?, List.getLast?_eq_some_getLast hne]
  exact LineReader.lineByte_of_mem_splitOnP (ofByte?_of_mem_filter bs) (List.getLast_mem hne)

/-- A new reader hands over the blocks of the finished lines, and is left as if it had read the
unfinished line only, but for the comment closed before it. -/
theorem feedAll_fresh :
    (LineReader.fresh.feedAll bs).1 =
        ((LineReader.between (latest (finishedComments bs) none)).feedAll (unfinished bs)).1 ∧
      (LineReader.fresh.feedAll bs).2.filterMap Incoming.block? =
        (finished bs).map lineBlock := by
  have hlines : LineReader.fresh.feedAll (bs.filter fun b => (RealtimeByte.ofByte? b).isNone) =
      LineReader.readLines none (lines bs) :=
    LineReader.feedAll_eq_readLines (ofByte?_of_mem_filter bs) (l := []) (fun b hb => nomatch hb)
      none
  obtain ⟨hreader, hblocks⟩ := LineReader.fresh.feedAll_filter bs
  rw [hlines] at hreader hblocks
  have hread : (LineReader.readLines none (lines bs)).2 =
      ((finished bs).map lineBlock).map .line := by
    rw [List.map_map]
    rfl
  rw [hread, Incoming.block?_line] at hblocks
  exact ⟨hreader, hblocks⟩

theorem lastComment_feedAll_fresh :
    (LineReader.fresh.feedAll bs).1.lastComment = lastComment bs := by
  obtain ⟨-, hreads⟩ := LineReader.feedAll_lineBytes (lineByte_of_mem_unfinished bs)
    (LineReader.between (latest (finishedComments bs) none)) rfl
  rw [(feedAll_fresh bs).1, hreads.lastComment, lastComment, closedComments, ← latest_none,
    latest_append]
  rfl

end LineText

namespace Emulator

/-- Writing to a new emulator is reading whole lines: it acts on what the reader hands over, where
the blocks are those of the finished lines, in order, and the comment closed last is that of the
stream. Of the finished lines only their last comment is left. The machine follows the calls, of
which the commands are those of the blocks, each in the modes that the blocks before it leave. -/
theorem write_eq_lines (c : EmulatorConfig) (m : Machine) (bs : List UInt8) :
    let e := start c m
    let read := e.reader.feedAll bs
    let blocks := (LineText.finished bs).map LineText.lineBlock
    e.write bs = { e.receiveAll read.2 with reader := read.1 } ∧
      read.2.filterMap Incoming.block? = blocks ∧
      read.1.lastComment = LineText.lastComment bs ∧
      read.1 = ((LineReader.between ((LineText.finishedComments bs).getLast?.map latinText)).feedAll
        (LineText.unfinished bs)).1 ∧
      (e.write bs).machine = m.obeyAll (e.calls bs) ∧
      Call.commands (e.calls bs) = Modes.initial.commandsAll c.signs blocks ∧
      (e.write bs).modes = blocks.foldl Modes.after .initial := by
  intro e read blocks
  obtain ⟨hclean, hblocks⟩ := LineText.feedAll_fresh bs
  rw [latest_none] at hclean
  refine ⟨e.write_eq bs, hblocks, LineText.lastComment_feedAll_fresh bs, hclean,
    e.write_machine bs, ?_, ?_⟩
  · exact (Modes.commands_calls ..).trans (congrArg (Modes.commandsAll c.signs .initial) hblocks)
  · rw [e.write_modes, Modes.foldl_afterIncoming]
    exact congrArg (List.foldl Modes.after .initial) hblocks

end Emulator
end Engraver
