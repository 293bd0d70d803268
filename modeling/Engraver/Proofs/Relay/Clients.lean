import Engraver.Proofs.Grbl.Lines
import Engraver.Proofs.Grbl.Replies
import Engraver.Relay.Server

/-! # One client after another

The relay does not tell its channel where a client ends. So an emulator reads the bytes of the next
client behind the line that was left unfinished: the first line that they finish is continued, the
others are their own. Nothing is continued if and only if the bytes left over mean nothing.
-/

namespace Engraver

theorem modifyHead_nil_append {α : Type} (ls : List (List α)) : ls.modifyHead ([] ++ ·) = ls :=
  congrFun List.modifyHead_id ls

theorem splitOnP_append_of_forall {α : Type} {p : α → Bool} {as : List α}
    (h : ∀ a ∈ as, p a = false) (bs : List α) :
    (as ++ bs).splitOnP p = (bs.splitOnP p).modifyHead (as ++ ·) := by
  induction as with
  | nil => exact (modifyHead_nil_append _).symm
  | cons a as ih =>
    obtain ⟨ha, has⟩ := List.forall_mem_cons.mp h
    rw [List.cons_append, List.splitOnP_cons_eq_if_modifyHead, if_neg (by simp [ha]), ih has,
      List.modifyHead_modifyHead]
    rfl

theorem dropLast_modifyHead {α : Type} (f : α → α) (as : List α) :
    (as.modifyHead f).dropLast = as.dropLast.modifyHead f := by
  rcases as with _ | ⟨a, _ | ⟨b, as⟩⟩ <;> rfl

namespace LineReader

open LineText

def Unfinished (s : LineReader) : Prop :=
  s.openComment.isSome ∨ s.letter.isSome ∨ s.numeral ≠ "" ∨ s.block.comment.isSome

variable {s : LineReader} {b : UInt8} {u : List UInt8}

theorem not_unfinished_between (comment : Option String) : ¬ (between comment).Unfinished := by
  rintro (h | h | h | h)
  · cases h
  · cases h
  · exact h rfl
  · cases h

theorem unfinished_feed (h : LineByte b) (hs : s.Unfinished ∨ ByteKind.ofByte b ≠ .ignored) :
    (s.feed b).1.Unfinished := by
  rw [s.feed_of_lineByte h, feedLine]
  cases ho : s.openComment with
  | some text =>
    dsimp only
    unfold feedComment
    split
    · exact .inr (.inr (.inr rfl))
    · rw [if_neg (by simp [h.2])]
      exact .inl rfl
  | none =>
    dsimp only
    cases hopens : LineParts.opensComment b with
    | true =>
      rw [feedCode, ofByte_of_opensComment hopens]
      exact .inl rfl
    | false =>
      have hkind := ofByte_of_code h.2 hopens
      rw [feedCode, hkind]
      rw [hkind] at hs
      cases hn : Numeral.isNumeralChar (byteChar b) with
      | true =>
        refine .inr (.inr (.inl fun hnil => ?_))
        have hpush := congrArg String.toList hnil
        simp at hpush
      | false =>
        cases ha : (byteChar b).isAlpha with
        | true => exact .inr (.inl rfl)
        | false =>
          rw [hn, ha] at hs
          exact hs.resolve_right fun hne => hne rfl

theorem unfinished_feedAll (hu : ∀ b ∈ u, LineByte b)
    (hs : s.Unfinished ∨ ∃ b ∈ u, ByteKind.ofByte b ≠ .ignored) :
    (s.feedAll u).1.Unfinished := by
  induction u generalizing s with
  | nil => simpa [feedAll] using hs
  | cons b u ih =>
    obtain ⟨hb, hu⟩ := List.forall_mem_cons.mp hu
    refine ih hu ?_
    -- nothing but a line end, and `u` has none, takes back what was read of a line
    rcases hs with hs | ⟨c, hc, hkind⟩
    · exact .inl (unfinished_feed hb (.inl hs))
    · rcases List.mem_cons.mp hc with rfl | hc
      · exact .inl (unfinished_feed hb (.inr hkind))
      · exact .inr ⟨c, hc, hkind⟩

theorem feedAll_ignored (hu : ∀ b ∈ u, LineByte b ∧ ByteKind.ofByte b = .ignored)
    (ho : s.openComment = none) : (s.feedAll u).1 = s := by
  induction u with
  | nil => rfl
  | cons b u ih =>
    obtain ⟨⟨hline, hkind⟩, hu⟩ := List.forall_mem_cons.mp hu
    rw [feedAll, feed_code hline ho, feedCode, hkind]
    exact ih hu

theorem feedAll_between_iff (hu : ∀ b ∈ u, LineByte b) (comment : Option String) :
    (∃ last, ((between comment).feedAll u).1 = between last) ↔
      ∀ b ∈ u, ByteKind.ofByte b = .ignored := by
  constructor
  · rintro ⟨last, hlast⟩
    by_contra hkind
    push Not at hkind
    have hunfinished := unfinished_feedAll (s := between comment) hu (.inr hkind)
    rw [hlast] at hunfinished
    exact not_unfinished_between last hunfinished
  · intro hkind
    exact ⟨comment, feedAll_ignored (fun b hb => ⟨hu b hb, hkind b hb⟩) rfl⟩

/-- Behind a line left unfinished, a stream hands over its own lines, of which the first one is
continued. -/
theorem feedAll_continued (hu : ∀ b ∈ u, LineByte b) (comment : Option String)
    (bs : List UInt8) :
    (((between comment).feedAll u).1.feedAll bs).2.filterMap Incoming.block? =
      ((finished bs).modifyHead (u ++ ·)).map lineBlock := by
  let code := bs.filter fun b => (RealtimeByte.ofByte? b).isNone
  let s := ((between comment).feedAll u).1
  have hlines : (between comment).feedAll (u ++ code) =
      readLines comment ((u ++ code).splitOnP ByteKind.isLineEnd) :=
    feedAll_eq_readLines (ofByte?_of_mem_filter bs) hu comment
  have hcut : (u ++ code).splitOnP ByteKind.isLineEnd = (lines bs).modifyHead (u ++ ·) :=
    splitOnP_append_of_forall (fun b hb => (hu b hb).2) code
  have hbehind : (s.feedAll code).2 =
      (((finished bs).modifyHead (u ++ ·)).map lineBlock).map .line := by
    have hread := congrArg Prod.snd hlines
    rw [feedAll_append, hcut] at hread
    dsimp only [readLines] at hread
    rw [(feedAll_lineBytes hu (between comment) rfl).1, dropLast_modifyHead] at hread
    rw [List.map_map]
    exact hread
  rw [(s.feedAll_filter bs).2, hbehind, Incoming.block?_line]

end LineReader

namespace Emulator

/-- With nothing of a line read, but for the last comment. -/
def betweenLines (e : Emulator) : Emulator :=
  { e with reader := .between e.reader.lastComment }

theorem commands_calls_continued {e : Emulator} {u : List UInt8} {comment : Option String}
    (hu : ∀ b ∈ u, LineByte b) (he : e.reader = ((LineReader.between comment).feedAll u).1)
    (bs : List UInt8) :
    Call.commands (e.calls bs) = e.modes.commandsAll e.signs
      (((LineText.finished bs).modifyHead (u ++ ·)).map LineText.lineBlock) := by
  rw [calls, Modes.commands_calls, he, LineReader.feedAll_continued hu]

theorem commands_calls_betweenLines (e : Emulator) (bs : List UInt8) :
    Call.commands (e.betweenLines.calls bs) =
      e.modes.commandsAll e.signs ((LineText.finished bs).map LineText.lineBlock) := by
  have hreader : e.betweenLines.reader =
      ((LineReader.between e.reader.lastComment).feedAll []).1 := rfl
  have h := commands_calls_continued (u := []) (fun b hb => nomatch hb) hreader bs
  rwa [modifyHead_nil_append] at h

theorem betweenLines_eq_iff {e : Emulator} {u : List UInt8} {comment : Option String}
    (hu : ∀ b ∈ u, LineByte b) (he : e.reader = ((LineReader.between comment).feedAll u).1) :
    e.betweenLines = e ↔ ∀ b ∈ u, ByteKind.ofByte b = .ignored := by
  rw [← LineReader.feedAll_between_iff hu comment, ← he]
  constructor
  · intro h
    exact ⟨e.reader.lastComment, (congrArg reader h).symm⟩
  · rintro ⟨last, hlast⟩
    obtain ⟨signs, modes, r, reply, machine⟩ := e
    obtain rfl : r = .between last := hlast
    rfl

end Emulator

namespace RelaySlot

open LineText

def Carries (s : RelaySlot Emulator) (e : Emulator) : Prop :=
  ∃ e', s.channel = some e' ∧ e'.read.2 = e.read.2

variable {s : RelaySlot Emulator} {e : Emulator}

theorem Carries.pending (h : s.Carries e) : s.pending.2.Carries e := by
  obtain ⟨e', hs, hread⟩ := h
  refine ⟨e'.read.2, ?_, hread⟩
  rw [RelaySlot.pending, hs]
  rfl

theorem Carries.relay (h : s.Carries e) (chunk : List UInt8) :
    (s.relay chunk).2.Carries (e.write chunk) := by
  obtain ⟨e', hs, hread⟩ := h
  refine ⟨(e'.write chunk).read.2, ?_, Emulator.read_write_congr hread chunk⟩
  rw [RelaySlot.relay, hs]
  rfl

variable {cfg : ServerConfig}

theorem Carries.relayAll (h : s.Carries e) (chunks : List cfg.Chunk) :
    (s.relayAll chunks).2.Carries (e.write (chunks.flatMap (·.bytes))) := by
  induction chunks generalizing s e with
  | nil => exact h
  | cons chunk chunks ih =>
    rw [List.flatMap_cons, Emulator.write_append]
    exact ih (h.relay chunk.bytes)

theorem Carries.serveClient (h : s.Carries e) (chunks : List cfg.Chunk) :
    (s.serveClient chunks).2.Carries (e.write (chunks.flatMap (·.bytes))) :=
  h.pending.relayAll chunks

theorem Carries.serveAll (h : s.Carries e) (clients : List (List cfg.Chunk)) :
    (s.serveAll clients).2.Carries (e.write (clients.flatten.flatMap (·.bytes))) := by
  induction clients generalizing s e with
  | nil => exact h
  | cons chunks clients ih =>
    rw [List.flatten_cons, List.flatMap_append, Emulator.write_append]
    exact ih (h.serveClient chunks)

theorem carries_attach (e : Emulator) : (empty.attach e).Carries e := ⟨e, rfl, rfl⟩

/-- After any clients, however their streams are cut, the emulator has the state of one that was
given all their bytes at once. The commands for the bytes of the next client are those of the lines
that these bytes finish, where the unfinished line stands in front of the first one; between two
lines the emulator would give the commands of these lines alone. It is between two lines if and only
if all bytes that are left over are ignored ones. -/
theorem calls_next_client (c : EmulatorConfig) (m : Machine) (cfg : ServerConfig)
    (clients : List (List cfg.Chunk)) (chunks : List cfg.Chunk) :
    let served := ((empty.attach (Emulator.start c m)).serveAll clients).2
    let before := clients.flatten.flatMap (·.bytes)
    let bytes := chunks.flatMap (·.bytes)
    let rest := unfinished before
    ∃ e e', served.channel = some e ∧ (served.serveClient chunks).2.channel = some e' ∧
      e.read.2 = ((Emulator.start c m).write before).read.2 ∧
      e'.read.2 = (e.write bytes).read.2 ∧
      e'.machine = e.machine.obeyAll (e.calls bytes) ∧
      Call.commands (e.calls bytes) = e.modes.commandsAll c.signs
        (((finished bytes).modifyHead (rest ++ ·)).map lineBlock) ∧
      Call.commands (e.betweenLines.calls bytes) =
        e.modes.commandsAll c.signs ((finished bytes).map lineBlock) ∧
      (e.betweenLines = e ↔ ∀ b ∈ rest, ByteKind.ofByte b = .ignored) := by
  intro served before bytes rest
  obtain ⟨e, hserved, hread⟩ := (carries_attach (Emulator.start c m)).serveAll clients
  have hcarries : served.Carries e := ⟨e, hserved, rfl⟩
  obtain ⟨e', hnext, hread'⟩ := hcarries.serveClient chunks
  have hreader : e.reader = ((LineReader.between (latest (finishedComments before)
      none)).feedAll rest).1 := by
    rw [← (feedAll_fresh before).1]
    exact (congrArg Emulator.reader hread).trans (Emulator.write_reader _ _)
  have hsigns : e.signs = c.signs :=
    (congrArg Emulator.signs hread).trans (Emulator.write_signs _ _)
  have hline := lineByte_of_mem_unfinished before
  refine ⟨e, e', hserved, hnext, hread, hread', ?_, ?_, ?_, ?_⟩
  · exact (congrArg Emulator.machine hread').trans (e.write_machine bytes)
  · rw [← hsigns]
    exact Emulator.commands_calls_continued hline hreader bytes
  · rw [← hsigns]
    exact e.commands_calls_betweenLines bytes
  · exact Emulator.betweenLines_eq_iff hline hreader

/-- `G1 X1` from one client and `0` from the next are a move that neither of them asked for. -/
theorem calls_next_client_ne :
    let first : ServerConfig.default.Chunk :=
      ⟨"G1 X1".toUTF8.toList, by decide +kernel, by decide +kernel⟩
    let second := "0\n".toUTF8.toList
    let served := ((empty.attach (Emulator.start .default (.fresh true))).serveAll [[first]]).2
    ∃ e, served.channel = some e ∧
      (Call.commands (e.calls second)).map Command.name = ["mode_compact", "move"] ∧
      Call.commands (e.betweenLines.calls second) = [] := by
  intro first second served
  obtain ⟨e, hserved, hread⟩ :=
    (carries_attach (Emulator.start .default (.fresh true))).serveAll [[first]]
  have hclean := congrArg Emulator.betweenLines hread
  refine ⟨e, hserved, ?_, ?_⟩
  · rw [Emulator.calls_congr hread]
    decide +kernel
  · change Call.commands (e.read.2.betweenLines.calls second) = []
    rw [hclean]
    decide +kernel

end RelaySlot
end Engraver
