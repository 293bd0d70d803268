import Mathlib.Data.List.DropRight
import Mathlib.Data.List.ReduceOption
import Engraver.Proofs.Grbl.Replies
import Engraver.Relay.Server

/-! # Reading replies back

A line end is answered with an acknowledgement, a status query with the status at that byte. The
slot keeps the newest answer until a read takes it. So a read returns the last answer since the read
before it, or nothing, and before any answer the first read returns the banner.
-/

namespace Engraver

inductive Access where
  | write (chunk : List UInt8)
  | read

namespace Access

def bytes : Access → List UInt8
  | write chunk => chunk
  | read => []

def isRead : Access → Bool
  | write _ => false
  | read => true

def beforeRead (as : List Access) : List UInt8 :=
  (as.rdropWhile (!·.isRead)).flatMap bytes

def sinceRead (as : List Access) : List UInt8 :=
  (as.rtakeWhile (!·.isRead)).flatMap bytes

end Access

namespace Emulator

open Access

def greeting? (c : EmulatorConfig) : Option String :=
  if c.banner.isEmpty then none else some c.banner

/-- What a byte puts into the slot. -/
def answer? (e : Emulator) (b : UInt8) : Option String :=
  if ByteKind.isLineEnd b then some acknowledgement
  else if b = RealtimeByte.statusQuery.toByte then some e.report.format else none

def answers (e : Emulator) : List UInt8 → List String
  | [] => []
  | b :: bs => (e.answer? b).toList ++ (e.writeByte b).answers bs

/-- Writes and reads in order, with what each read returns. -/
def accessAll (e : Emulator) : List Access → List (Option String) × Emulator
  | [] => ([], e)
  | .write chunk :: as => (e.write chunk).accessAll as
  | .read :: as => (e.read.1 :: (e.read.2.accessAll as).1, (e.read.2.accessAll as).2)

variable {e e' : Emulator}

theorem isSome_answer? (e : Emulator) (b : UInt8) : (e.answer? b).isSome = isAnswered b := by
  unfold answer? isAnswered
  cases ByteKind.isLineEnd b with
  | true => rfl
  | false =>
    by_cases hq : b = RealtimeByte.statusQuery.toByte <;> simp [hq]

theorem answer?_eq_none {b : UInt8} (h : isAnswered b = false) : e.answer? b = none := by
  rw [← Option.isNone_iff_eq_none, ← Option.not_isSome, isSome_answer?, h]
  rfl

/-- The status as a line of text: the state, the position in incoming units, the speed as an
incoming feed, and the power as a whole number. -/
def statusLine (e : Emulator) : String :=
  let places := Fixed.render 6
  "<" ++ e.machine.state.name
    ++ "|MPos:" ++ places (e.machine.position.1 / e.modes.units.milsPerUnit)
    ++ "," ++ places (e.machine.position.2 / e.modes.units.milsPerUnit)
    ++ "," ++ places 0.0
    ++ "|FS:" ++ places (e.machine.speed / e.modes.feedScale)
    ++ "," ++ toString ((Binary.ofFloat e.machine.power).saturate .int64) ++ ">\r\n"

theorem format_report (e : Emulator) : e.report.format = e.statusLine :=
  rfl

theorem reply_writeByte_eq_or (e : Emulator) (b : UInt8) :
    (e.writeByte b).reply = (e.answer? b).or e.reply := by
  rw [reply_writeByte, answer?]
  split
  · rfl
  · split <;> rfl

theorem answers_append (e : Emulator) (as bs : List UInt8) :
    e.answers (as ++ bs) = e.answers as ++ (e.write as).answers bs := by
  induction as generalizing e with
  | nil => rfl
  | cons a as ih => simp only [List.cons_append, answers, ih, write_cons, List.append_assoc]

theorem answers_eq_nil {bs : List UInt8} (h : ∀ b ∈ bs, isAnswered b = false) :
    e.answers bs = [] := by
  induction bs generalizing e with
  | nil => rfl
  | cons b bs ih =>
    obtain ⟨hb, hbs⟩ := List.forall_mem_cons.mp h
    rw [answers, answer?_eq_none hb, ih hbs]
    rfl

theorem getLast?_answers {before after : List UInt8} {b : UInt8} (hb : isAnswered b)
    (hafter : ∀ d ∈ after, isAnswered d = false) :
    (e.answers (before ++ b :: after)).getLast? = (e.write before).answer? b := by
  obtain ⟨text, htext⟩ := Option.isSome_iff_exists.mp
    (((e.write before).isSome_answer? b).trans hb)
  rw [answers_append, answers, answers_eq_nil hafter, htext]
  simp

theorem reply_write (e : Emulator) (bs : List UInt8) :
    (e.write bs).reply = (e.answers bs).getLast?.or e.reply := by
  induction bs generalizing e with
  | nil => rfl
  | cons b bs ih =>
    rw [write_cons, ih, reply_writeByte_eq_or, answers, List.getLast?_append, Option.or_assoc]
    cases e.answer? b <;> rfl

theorem answers_congr (h : e.read.2 = e'.read.2) (bs : List UInt8) :
    e.answers bs = e'.answers bs := by
  induction bs generalizing e e' with
  | nil => rfl
  | cons b bs ih =>
    have hanswer : e.answer? b = e'.answer? b := by
      rw [eq_of_read_eq h]
      rfl
    have hwrite : (e.writeByte b).read.2 = (e'.writeByte b).read.2 := read_write_congr h [b]
    rw [answers, answers, hanswer, ih hwrite]

theorem accessAll_append (e : Emulator) (as bs : List Access) :
    e.accessAll (as ++ bs) =
      ((e.accessAll as).1 ++ ((e.accessAll as).2.accessAll bs).1,
        ((e.accessAll as).2.accessAll bs).2) := by
  induction as generalizing e with
  | nil => rfl
  | cons a as ih =>
    cases a with
    | write chunk => exact ih (e.write chunk)
    | read => simp only [List.cons_append, accessAll, ih]

theorem accessAll_writes {as : List Access} (h : ∀ a ∈ as, a.isRead = false) :
    (e.accessAll as).2 = e.write (as.flatMap bytes) := by
  induction as generalizing e with
  | nil => rfl
  | cons a as ih =>
    obtain ⟨ha, has⟩ := List.forall_mem_cons.mp h
    cases a with
    | write chunk => rw [accessAll, ih has, List.flatMap_cons, write_append, bytes]
    | read => cases ha

/-- Reading between the writes changes nothing but the slot. -/
theorem read_accessAll (e : Emulator) (as : List Access) :
    (e.accessAll as).2.read.2 = (e.write (as.flatMap bytes)).read.2 := by
  induction as generalizing e with
  | nil => rfl
  | cons a as ih =>
    rw [List.flatMap_cons, write_append]
    cases a with
    | write chunk => exact ih (e.write chunk)
    | read =>
      have hread : e.read.2.read.2 = e.read.2 := rfl
      exact (ih e.read.2).trans (read_write_congr hread _)

theorem reply_accessAll_rdropWhile (e : Emulator) (as : List Access) :
    (e.accessAll (as.rdropWhile (!·.isRead))).2.reply =
      if as.any isRead then none else e.reply := by
  induction as using List.reverseRecOn with
  | nil => rfl
  | append_singleton as a ih =>
    cases a with
    | write chunk => simpa [isRead] using ih
    | read => simp [isRead, accessAll_append, accessAll, read]

theorem reply_accessAll (e : Emulator) (as : List Access) :
    (e.accessAll as).2.reply =
      ((e.write (beforeRead as)).answers (sinceRead as)).getLast?.or
        (if as.any isRead then none else e.reply) := by
  let s := (e.accessAll (as.rdropWhile (!·.isRead))).2
  have hwrites : ∀ a ∈ as.rtakeWhile (!·.isRead), a.isRead = false := by
    intro a ha
    simpa using List.mem_rtakeWhile_imp ha
  have hsplit : (e.accessAll as).2 = s.write (sinceRead as) :=
    calc
      (e.accessAll as).2
        = (e.accessAll (as.rdropWhile (!·.isRead) ++ as.rtakeWhile (!·.isRead))).2 := by
          rw [List.rdropWhile_append_rtakeWhile]
      _ = (s.accessAll (as.rtakeWhile (!·.isRead))).2 := by rw [accessAll_append]
      _ = s.write (sinceRead as) := accessAll_writes hwrites
  have hanswers : s.answers (sinceRead as) = (e.write (beforeRead as)).answers (sinceRead as) :=
    answers_congr (e.read_accessAll _) _
  rw [hsplit, reply_write, hanswers, e.reply_accessAll_rdropWhile]

/-- What the reads return are answers in order, none of them twice. -/
theorem sublist_answers (e : Emulator) (as : List Access) :
    ((e.accessAll as).1.reduceOption).Sublist
      (e.reply.toList ++ e.answers (as.flatMap bytes)) := by
  induction as generalizing e with
  | nil => exact List.nil_sublist _
  | cons a as ih =>
    cases a with
    | write chunk =>
      have hreply : (e.write chunk).reply.toList.Sublist (e.reply.toList ++ e.answers chunk) := by
        rw [reply_write]
        cases hlast : (e.answers chunk).getLast? with
        | none => simp
        | some text =>
          have hmem := List.mem_of_getLast? hlast
          simp [hmem]
      rw [List.flatMap_cons, answers_append, ← List.append_assoc]
      exact (ih (e.write chunk)).trans (hreply.append_right _)
    | read =>
      have hread : e.read.2.read.2 = e.read.2 := rfl
      have hanswers := answers_congr hread (as.flatMap bytes)
      have htail := ih e.read.2
      rw [hanswers] at htail
      rw [List.flatMap_cons, accessAll]
      cases hreply : e.reply with
      | none => simpa [read, hreply, List.reduceOption_cons_of_none, bytes] using htail
      | some text =>
        simpa [read, hreply, List.reduceOption_cons_of_some, bytes] using htail

theorem pending_relay (s : RelaySlot Emulator) (chunk : List UInt8) :
    (s.relay chunk).2.pending.1 = none := by
  obtain ⟨channel, backlog⟩ := s
  cases channel <;> rfl

/-- After any writes and reads, a read returns the answer to the last byte answered since the read
before it: an acknowledgement, or the status in which the query found the emulator. If no byte was
answered it returns nothing, but the banner if it is the first. No answer is returned twice, and a
relay leaves none behind. -/
theorem read_newest_answer (c : EmulatorConfig) (m : Machine) :
    (∀ as : List Access,
      let e := start c m
      let reply := (e.accessAll as).2.read.1
      (∀ before b after, sinceRead as = before ++ b :: after → isAnswered b →
        (∀ d ∈ after, isAnswered d = false) →
        reply = some (if ByteKind.isLineEnd b then "ok\r\n"
          else (e.write (beforeRead as ++ before)).statusLine)) ∧
      ((∀ b ∈ sinceRead as, isAnswered b = false) →
        reply = if as.any isRead then none else greeting? c) ∧
      ((e.accessAll as).1.reduceOption).Sublist
        ((greeting? c).toList ++ e.answers (as.flatMap bytes))) ∧
    ∀ (s : RelaySlot Emulator) (chunk : List UInt8), (s.relay chunk).2.pending.1 = none := by
  constructor
  · intro as e reply
    have hreply : reply = ((e.write (beforeRead as)).answers (sinceRead as)).getLast?.or
        (if as.any isRead then none else greeting? c) := e.reply_accessAll as
    refine ⟨?_, ?_, e.sublist_answers as⟩
    · intro before b after hsince hb hafter
      rw [hreply, hsince, getLast?_answers hb hafter, ← write_append, answer?]
      rcases Bool.or_eq_true_iff.mp hb with hend | hquery
      · rw [if_pos hend, if_pos hend]
        rfl
      · obtain rfl := of_decide_eq_true hquery
        exact congrArg some (format_report _)
    · intro hquiet
      rw [hreply, answers_eq_nil hquiet]
      rfl
  · exact pending_relay

theorem read_newest_answer_query_in_comment :
    let e := start .default (.fresh true)
    let line := "G1X1\n".toUTF8.toList
    let as : List Access :=
      [.write line, .read, .write "(is it?".toUTF8.toList, .write ")X2".toUTF8.toList]
    (e.accessAll as).2.read.1 =
      some (e.write (line ++ "(is it".toUTF8.toList)).statusLine := by
  intro e line as
  have hsince : sinceRead as = "(is it".toUTF8.toList ++ 0x3f :: ")X2".toUTF8.toList := by
    decide +kernel
  have hbefore : beforeRead as = line := by decide +kernel
  have hreply := ((read_newest_answer .default (.fresh true)).1 as).1 _ _ _ hsince (by decide)
    (by decide +kernel)
  rwa [if_neg (by decide), hbefore] at hreply

end Emulator
end Engraver
