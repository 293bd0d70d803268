import Mathlib.Data.List.Nodup
import Mathlib.Data.List.Perm.Basic
import Engraver.Job.Spooler
import Engraver.Proofs.Grbl.Calls

/-! # Jobs through the queue

A ledger numbers the jobs that are sent and notes what becomes of them, and an interpreter with a
tape takes down what reaches it. Each job is in one place: it waits, was removed, was cleared or was
run. The jobs that were not withdrawn are run in the order sent, and the commands on the tape are
their streams one after another.
-/

namespace Engraver

inductive JobRequest where
  | send (id : JobId) (o : Operation)
  | remove (index : Nat)
  | clear
  | run
  | stop

def JobRequest.job? : JobRequest → Option Job
  | send id o => some ⟨id, o⟩
  | _ => none

namespace Spooler

variable {μ : Type} [Interpreter μ] {s : Spooler}

theorem remove_of_getElem? {index : Nat} {j : Job} (h : s.queue[index]? = some j) :
    s.remove index = (.ok j, ⟨s.queue.eraseIdx index⟩) := by
  rw [remove, h]

theorem remove_of_getElem?_eq_none {index : Nat} (h : s.queue[index]? = none) :
    s.remove index = (.error (.notFound index s.queue.length), s) := by
  rw [remove, h]

theorem runNext_of_cons {j : Job} {rest : List Job} (h : s.queue = j :: rest) (m : μ) :
    s.runNext m = (.ok j.operation.generate.length, ⟨rest⟩,
      j.operation.generate.foldl Interpreter.command m) := by
  rw [runNext, h]
  rfl

theorem runNext_of_nil (h : s.queue = []) (m : μ) : s.runNext m = (.error .emptyQueue, s, m) := by
  rw [runNext, h]

theorem map_index_summary (s : Spooler) :
    s.summary.map (·.index) = List.range s.queue.length :=
  List.ext_getElem (by simp [summary]) (by simp [summary, summarise])

theorem map_id_summary (s : Spooler) : s.summary.map (·.id) = s.queue.map Job.id :=
  List.ext_getElem (by simp [summary]) (by simp [summary, summarise])

end Spooler

structure Workshop (μ : Type) where
  spooler : Spooler
  interpreter : μ

namespace Workshop

variable {μ ν : Type}

def start (m : μ) : Workshop μ := ⟨.empty, m⟩

def map (f : μ → ν) (w : Workshop μ) : Workshop ν := ⟨w.spooler, f w.interpreter⟩

variable [Interpreter μ]

def handle (w : Workshop μ) : JobRequest → Workshop μ
  | .send id o => { w with spooler := (w.spooler.send id o).2 }
  | .remove index => { w with spooler := (w.spooler.remove index).2 }
  | .clear => { w with spooler := w.spooler.clear }
  | .run =>
    let (_, s, m) := w.spooler.runNext w.interpreter
    ⟨s, m⟩
  | .stop => { w with interpreter := w.spooler.emergencyStop w.interpreter }

def handleAll (w : Workshop μ) (rs : List JobRequest) : Workshop μ :=
  rs.foldl handle w

variable (w : Workshop μ)

theorem handle_remove_of_getElem? {index : Nat} {j : Job} (h : w.spooler.queue[index]? = some j) :
    w.handle (.remove index) = { w with spooler := ⟨w.spooler.queue.eraseIdx index⟩ } := by
  rw [handle, Spooler.remove_of_getElem? h]

theorem handle_remove_of_getElem?_eq_none {index : Nat} (h : w.spooler.queue[index]? = none) :
    w.handle (.remove index) = w := by
  rw [handle, Spooler.remove_of_getElem?_eq_none h]

theorem handle_run_of_cons {j : Job} {rest : List Job} (h : w.spooler.queue = j :: rest) :
    w.handle .run = ⟨⟨rest⟩, j.operation.generate.foldl Interpreter.command w.interpreter⟩ := by
  rw [handle, Spooler.runNext_of_cons h]

theorem handle_run_of_nil (h : w.spooler.queue = []) : w.handle .run = w := by
  rw [handle, Spooler.runNext_of_nil h]

end Workshop

/-- An interpreter with a tape of what it was given. -/
structure Taped (μ : Type) where
  interpreter : μ
  tape : List Call

namespace Taped

variable {μ : Type}

def fresh (m : μ) : Taped μ := ⟨m, []⟩

variable [Interpreter μ]

instance : Interpreter (Taped μ) where
  command t c := ⟨Interpreter.command t.interpreter c, t.tape ++ [.command c]⟩
  signal t x := ⟨Interpreter.signal t.interpreter x, t.tape ++ [.signal x]⟩

theorem foldl_command (t : Taped μ) (cs : List Command) :
    cs.foldl Interpreter.command t =
      ⟨cs.foldl Interpreter.command t.interpreter, t.tape ++ cs.map .command⟩ := by
  induction cs generalizing t with
  | nil => simp
  | cons c cs ih =>
    rw [List.foldl_cons, ih]
    simp [Interpreter.command]

end Taped

namespace Workshop

variable {μ : Type} [Interpreter μ]

/-- The tape does not change what the spooler does. -/
theorem map_interpreter_handle (w : Workshop (Taped μ)) (r : JobRequest) :
    (w.handle r).map Taped.interpreter = (w.map Taped.interpreter).handle r := by
  let v := w.map Taped.interpreter
  cases r with
  | remove index =>
    cases h : w.spooler.queue[index]? with
    | none => rw [w.handle_remove_of_getElem?_eq_none h, v.handle_remove_of_getElem?_eq_none h]
    | some j =>
      rw [w.handle_remove_of_getElem? h, v.handle_remove_of_getElem? h]
      rfl
  | run =>
    cases h : w.spooler.queue with
    | nil => rw [w.handle_run_of_nil h, v.handle_run_of_nil h]
    | cons j rest =>
      rw [w.handle_run_of_cons h, v.handle_run_of_cons h, Taped.foldl_command]
      rfl
  | _ => rfl

theorem map_interpreter_handleAll (w : Workshop (Taped μ)) (rs : List JobRequest) :
    (w.handleAll rs).map Taped.interpreter = (w.map Taped.interpreter).handleAll rs := by
  induction rs generalizing w with
  | nil => rfl
  | cons r rs ih =>
    refine (ih _).trans ?_
    rw [map_interpreter_handle]
    rfl

end Workshop

structure JobEntry where
  number : Nat
  job : Job

/-- A spooler with the jobs that were sent and what became of them. The numbers are the ledger's
own: the spooler knows nothing of them. -/
structure JobLedger (μ : Type) where
  workshop : Workshop (Taped μ)
  sent : List JobEntry
  waiting : List JobEntry
  removed : List JobEntry
  cleared : List JobEntry
  ran : List JobEntry

namespace JobLedger

variable {μ : Type}

def start (m : μ) : JobLedger μ := ⟨.start (.fresh m), [], [], [], [], []⟩

def spooler (l : JobLedger μ) : Spooler := l.workshop.spooler

def withdrawn (l : JobLedger μ) : List JobEntry := l.removed ++ l.cleared

def commands (l : JobLedger μ) : List Command := Call.commands l.workshop.interpreter.tape

variable [Interpreter μ]

/-- Notes a job that is sent under the next number, one that is taken out from among those that
wait, all of these when the queue is cleared and the first of them when it is run. -/
def handle (l : JobLedger μ) (r : JobRequest) : JobLedger μ :=
  let w := l.workshop.handle r
  match r with
  | .send id o =>
    let e : JobEntry := ⟨l.sent.length, ⟨id, o⟩⟩
    { l with workshop := w, sent := l.sent ++ [e], waiting := l.waiting ++ [e] }
  | .remove index =>
    { l with
      workshop := w
      waiting := l.waiting.eraseIdx index
      removed := l.removed ++ l.waiting[index]?.toList }
  | .clear => { l with workshop := w, waiting := [], cleared := l.cleared ++ l.waiting }
  | .run =>
    { l with workshop := w, waiting := l.waiting.drop 1, ran := l.ran ++ l.waiting.take 1 }
  | .stop => { l with workshop := w }

def handleAll (l : JobLedger μ) (rs : List JobRequest) : JobLedger μ :=
  rs.foldl handle l

omit [Interpreter μ] in
/-- Jobs are numbered as they are sent, and those that wait are the queue. Every job is in one
place; the jobs that are not withdrawn leave the queue in the order sent, and the interpreter was
given the streams of those that were run. -/
structure Consistent (l : JobLedger μ) : Prop where
  numbers : l.sent.map JobEntry.number = List.range l.sent.length
  queue : l.spooler.queue = l.waiting.map JobEntry.job
  perm : l.sent.Perm (l.waiting ++ (l.withdrawn ++ l.ran))
  order : (l.ran ++ l.waiting).Sublist l.sent
  commands : l.commands = l.ran.flatMap fun e => e.job.operation.generate

theorem eq_filter_of_sublist {α κ : Type} [DecidableEq κ] {key : α → κ} {as bs : List α}
    (h : as.Sublist bs) (hn : (bs.map key).Nodup) :
    as = bs.filter fun b => key b ∈ as.map key := by
  induction h with
  | slnil => rfl
  | cons b h ih =>
    obtain ⟨hb, hn⟩ := List.nodup_cons.mp hn
    have hb' : key b ∉ _ := fun hmem => hb ((h.map key).mem hmem)
    rw [List.filter_cons_of_neg (by simpa using hb')]
    exact ih hn
  | @cons_cons as bs b h ih =>
    obtain ⟨hb, hn⟩ := List.nodup_cons.mp hn
    rw [List.filter_cons_of_pos (by simp)]
    congr 1
    refine (ih hn).trans (List.filter_congr fun c hc => ?_)
    have hne : key c ≠ key b := fun he => hb (he ▸ List.mem_map_of_mem hc)
    simp [hne]

theorem perm_of_gone {jobs queue queue' left left' : List JobEntry} (gone : List JobEntry)
    (h : jobs.Perm (queue ++ left)) (hqueue : queue.Perm (gone ++ queue'))
    (hleft : left'.Perm (gone ++ left)) : jobs.Perm (queue' ++ left') :=
  calc
    jobs.Perm (queue ++ left) := h
    _ |>.Perm (gone ++ queue' ++ left) := hqueue.append_right left
    _ |>.Perm (queue' ++ (gone ++ left)) := by
      rw [List.append_assoc]
      exact List.perm_append_comm_assoc ..
    _ |>.Perm (queue' ++ left') := hleft.symm.append_left queue'

namespace Consistent

variable {l : JobLedger μ}

omit [Interpreter μ] in
theorem start (m : μ) : Consistent (.start m) :=
  ⟨rfl, rfl, .nil, .slnil, rfl⟩

theorem send (h : l.Consistent) (id : JobId) (o : Operation) :
    (l.handle (.send id o)).Consistent := by
  let e : JobEntry := ⟨l.sent.length, ⟨id, o⟩⟩
  constructor
  · change (l.sent ++ [e]).map JobEntry.number = List.range (l.sent ++ [e]).length
    rw [List.map_append, h.numbers, List.length_append, List.length_singleton, List.range_succ]
    rfl
  · change l.spooler.queue ++ [e.job] = (l.waiting ++ [e]).map JobEntry.job
    rw [List.map_append, h.queue]
    rfl
  · change (l.sent ++ [e]).Perm (l.waiting ++ [e] ++ (l.withdrawn ++ l.ran))
    refine (h.perm.append_right [e]).trans ?_
    rw [List.append_assoc, List.append_assoc l.waiting]
    exact .append_left _ List.perm_append_comm
  · change (l.ran ++ (l.waiting ++ [e])).Sublist (l.sent ++ [e])
    rw [← List.append_assoc]
    exact h.order.append (.refl _)
  · exact h.commands

theorem remove (h : l.Consistent) (index : Nat) : (l.handle (.remove index)).Consistent := by
  have hqueue : (l.handle (.remove index)).spooler.queue =
      (l.waiting.eraseIdx index).map JobEntry.job := by
    rw [← List.eraseIdx_map, ← h.queue]
    cases hi : l.spooler.queue[index]? with
    | none =>
      rw [List.eraseIdx_of_length_le (List.getElem?_eq_none_iff.mp hi)]
      exact congrArg (·.spooler.queue) (l.workshop.handle_remove_of_getElem?_eq_none hi)
    | some j => exact congrArg (·.spooler.queue) (l.workshop.handle_remove_of_getElem? hi)
  refine ⟨h.numbers, hqueue, ?_, ?_, h.commands⟩
  · refine perm_of_gone l.waiting[index]?.toList h.perm ?_ ?_
    · change l.waiting.Perm (_ ++ l.waiting.eraseIdx index)
      cases hi : l.waiting[index]? with
      | none =>
        rw [List.eraseIdx_of_length_le (List.getElem?_eq_none_iff.mp hi)]
        exact .refl _
      | some e =>
        obtain ⟨hlt, rfl⟩ := List.getElem?_eq_some_iff.mp hi
        exact (List.getElem_cons_eraseIdx_perm hlt).symm
    · simp only [JobLedger.handle, withdrawn, List.append_assoc]
      exact List.perm_append_comm_assoc ..
  · exact (List.eraseIdx_sublist ..).append_left _ |>.trans h.order

theorem clear (h : l.Consistent) : (l.handle .clear).Consistent := by
  have hwaiting : l.waiting.Perm (l.waiting ++ []) := .of_eq (List.append_nil _).symm
  refine ⟨h.numbers, rfl, perm_of_gone l.waiting h.perm hwaiting ?_, ?_, h.commands⟩
  · simp only [JobLedger.handle, withdrawn, List.append_assoc]
    exact ((List.perm_append_comm_assoc ..).append_left l.removed).trans
      (List.perm_append_comm_assoc ..)
  · exact (List.nil_sublist _).append_left _ |>.trans h.order

theorem run (h : l.Consistent) : (l.handle .run).Consistent := by
  have hqueue := h.queue
  cases hw : l.waiting with
  | nil =>
    rw [hw] at hqueue
    have hrest : l.waiting.drop 1 = l.waiting := by rw [hw]; rfl
    have hran : l.ran ++ l.waiting.take 1 = l.ran := by rw [hw]; exact List.append_nil _
    rwa [JobLedger.handle, l.workshop.handle_run_of_nil hqueue, hrest, hran]
  | cons e rest =>
    rw [hw, List.map_cons] at hqueue
    have hl : l.handle .run = { l with
        workshop := ⟨⟨rest.map JobEntry.job⟩,
          e.job.operation.generate.foldl Interpreter.command l.workshop.interpreter⟩
        waiting := rest
        ran := l.ran ++ [e] } := by
      rw [JobLedger.handle, l.workshop.handle_run_of_cons hqueue, hw]
      rfl
    rw [hl, Taped.foldl_command]
    refine ⟨h.numbers, rfl, perm_of_gone [e] h.perm (.of_eq hw) ?_, ?_, ?_⟩
    · change (l.withdrawn ++ (l.ran ++ [e])).Perm _
      rw [← List.append_assoc]
      exact List.perm_append_comm
    · change (l.ran ++ [e] ++ rest).Sublist l.sent
      rw [List.append_assoc, List.singleton_append, ← hw]
      exact h.order
    · change Call.commands
          (l.workshop.interpreter.tape ++ e.job.operation.generate.map .command) =
        (l.ran ++ [e]).flatMap _
      rw [Call.commands_append, Call.commands_map_command, List.flatMap_append, ← h.commands,
        List.flatMap_singleton]
      rfl

theorem stop (h : l.Consistent) : (l.handle .stop).Consistent := by
  refine ⟨h.numbers, h.queue, h.perm, h.order, ?_⟩
  change Call.commands (l.workshop.interpreter.tape ++ [.signal .reset]) = l.ran.flatMap _
  rw [Call.commands_append, ← h.commands]
  exact List.append_nil _

theorem handle (h : l.Consistent) (r : JobRequest) : (l.handle r).Consistent := by
  cases r with
  | send id o => exact h.send id o
  | remove index => exact h.remove index
  | clear => exact h.clear
  | run => exact h.run
  | stop => exact h.stop

theorem handleAll (h : l.Consistent) (rs : List JobRequest) : (l.handleAll rs).Consistent := by
  induction rs generalizing l with
  | nil => exact h
  | cons r rs ih => exact ih (h.handle r)

omit [Interpreter μ] in
theorem nodup_sent (h : l.Consistent) : (l.sent.map JobEntry.number).Nodup := by
  rw [h.numbers]
  exact List.nodup_range

omit [Interpreter μ] in
/-- The jobs that are not withdrawn, in the order sent: some were run, the others wait. -/
theorem ran_append_waiting (h : l.Consistent) :
    l.ran ++ l.waiting =
      l.sent.filter fun e => e.number ∉ l.withdrawn.map JobEntry.number := by
  have hperm : (l.sent.map JobEntry.number).Perm
      ((l.ran ++ l.waiting).map JobEntry.number ++ l.withdrawn.map JobEntry.number) := by
    rw [← List.map_append, List.append_assoc]
    refine (h.perm.trans ?_).map JobEntry.number
    rw [← List.append_assoc]
    exact List.perm_append_comm
  have hdisjoint := (List.nodup_append'.mp (hperm.nodup h.nodup_sent)).2.2
  refine (eq_filter_of_sublist h.order h.nodup_sent).trans (List.filter_congr fun e he => ?_)
  have hmem := List.mem_append.mp (hperm.mem_iff.mp (List.mem_map_of_mem he))
  exact decide_eq_decide.mpr ⟨fun ha hb => hdisjoint ha hb, hmem.resolve_right⟩

end Consistent

theorem workshop_handle (l : JobLedger μ) (r : JobRequest) :
    (l.handle r).workshop = l.workshop.handle r := by
  cases r <;> rfl

theorem workshop_handleAll (l : JobLedger μ) (rs : List JobRequest) :
    (l.handleAll rs).workshop = l.workshop.handleAll rs := by
  induction rs generalizing l with
  | nil => rfl
  | cons r rs ih =>
    refine (ih _).trans ?_
    rw [workshop_handle]
    rfl

theorem jobs_handle (l : JobLedger μ) (r : JobRequest) :
    (l.handle r).sent.map JobEntry.job = l.sent.map JobEntry.job ++ r.job?.toList := by
  cases r with
  | send id o => exact List.map_append
  | _ => exact (List.append_nil _).symm

theorem jobs_handleAll (l : JobLedger μ) (rs : List JobRequest) :
    (l.handleAll rs).sent.map JobEntry.job =
      l.sent.map JobEntry.job ++ rs.filterMap JobRequest.job? := by
  induction rs generalizing l with
  | nil => exact (List.append_nil _).symm
  | cons r rs ih =>
    refine (ih _).trans ?_
    rw [jobs_handle, List.append_assoc]
    cases h : r.job? <;> simp [h]

/-- Whatever is asked of a spooler, failing requests included and whatever identifiers are drawn,
every job that was sent is in one place and once: it waits, was removed, was cleared or was run. The
jobs that are not withdrawn are run in the order sent, the others of them wait in that order and are
shown by their positions. The commands that the interpreter was given are the streams of the jobs
that were run, one after another. The next run sends the stream of the front job; without one, and
where a job is to be removed that is not there, the call returns an error and everything stays. -/
theorem jobs_run_once_in_order (m : μ) (rs : List JobRequest) :
    let l := (start m).handleAll rs
    let s := l.spooler
    l.workshop.map Taped.interpreter = (Workshop.start m).handleAll rs ∧
    (l.sent.map JobEntry.job = rs.filterMap JobRequest.job? ∧
      l.sent.map JobEntry.number = List.range l.sent.length) ∧
    s.queue = l.waiting.map JobEntry.job ∧
    ((l.waiting ++ l.removed ++ l.cleared ++ l.ran).map JobEntry.number).Nodup ∧
    l.sent.Perm (l.waiting ++ l.removed ++ l.cleared ++ l.ran) ∧
    l.ran ++ l.waiting =
      (l.sent.filter fun e => e.number ∉ (l.removed ++ l.cleared).map JobEntry.number) ∧
    s.summary.map (·.index) = List.range s.queue.length ∧
    s.summary.map (·.id) = s.queue.map Job.id ∧
    Call.commands l.workshop.interpreter.tape =
      (l.ran.flatMap fun e => e.job.operation.generate) ∧
    (match s.queue with
      | [] => s.runNext l.workshop.interpreter =
            (.error .emptyQueue, s, l.workshop.interpreter) ∧
          l.workshop.handle .run = l.workshop
      | j :: rest => ∃ t, l.workshop.handle .run = ⟨⟨rest⟩, t⟩ ∧
          s.runNext l.workshop.interpreter = (.ok j.operation.generate.length, ⟨rest⟩, t)) ∧
    ∀ index, match s.queue[index]? with
      | none => s.remove index = (.error (.notFound index s.queue.length), s) ∧
          l.workshop.handle (.remove index) = l.workshop
      | some j => s.remove index = (.ok j, ⟨s.queue.eraseIdx index⟩) := by
  intro l s
  have h : l.Consistent := (Consistent.start m).handleAll rs
  have hperm : l.sent.Perm (l.waiting ++ l.removed ++ l.cleared ++ l.ran) := by
    have hp := h.perm
    rwa [withdrawn, ← List.append_assoc, ← List.append_assoc] at hp
  refine ⟨?_, ⟨jobs_handleAll _ rs, h.numbers⟩, h.queue,
    (hperm.map JobEntry.number).nodup h.nodup_sent, hperm, h.ran_append_waiting,
    s.map_index_summary, s.map_id_summary, h.commands, ?_, fun index => ?_⟩
  · exact (congrArg _ (workshop_handleAll _ rs)).trans (Workshop.map_interpreter_handleAll _ rs)
  · split
    · next hq => exact ⟨Spooler.runNext_of_nil hq _, l.workshop.handle_run_of_nil hq⟩
    · next hq => exact ⟨_, l.workshop.handle_run_of_cons hq, Spooler.runNext_of_cons hq _⟩
  · split
    · next hi =>
      exact ⟨Spooler.remove_of_getElem?_eq_none hi,
        l.workshop.handle_remove_of_getElem?_eq_none hi⟩
    · next hi => exact Spooler.remove_of_getElem? hi

end JobLedger
end Engraver
