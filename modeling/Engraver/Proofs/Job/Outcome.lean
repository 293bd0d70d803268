import Engraver.Proofs.Job.Discipline
import Engraver.Proofs.Job.Queue

/-! # What a job leaves behind

A field of the machine keeps what was written to it last. A job writes the positioning, the laser,
speed and power itself, moves under absolute positioning only and goes nowhere else. So what it
leaves does not depend on the machine that it is given, but for the position if it does not move.
-/

namespace Engraver

namespace Command

def speed? : Command → Option Float
  | setSpeed v => some v
  | _ => none

def power? : Command → Option Float
  | setPower v => some v
  | _ => none

def laser? : Command → Option Bool
  | laserOn => some true
  | laserOff | modeRapid | home | reset => some false
  | _ => none

def isWork : Command → Bool
  | modeRapid | modeProgram | setDirection _ | move .. | plot _ | raster _ => true
  | _ => false

/-- Neither selects incremental positioning nor moves other than to coordinates. -/
def isAbsolute : Command → Bool
  | setIncremental | home => false
  | _ => true

/-- Commands that select absolute positioning before anything moves, and keep it. -/
def Placed (cs : List Command) : Prop :=
  ∃ rest, cs = .modeRapid :: .setAbsolute :: rest ∧ ∀ c ∈ rest, c.isAbsolute

theorem speed?_of_isWork {c : Command} (h : c.isWork) : c.speed? = none := by
  cases c with
  | setSpeed v => cases h
  | _ => rfl

theorem power?_of_isWork {c : Command} (h : c.isWork) : c.power? = none := by
  cases c with
  | setPower v => cases h
  | _ => rfl

end Command

open Command

theorem getD_getLast?_filterMap_cons {α β : Type} (f : α → Option β) (a : α) (as : List α) (b : β) :
    ((a :: as).filterMap f).getLast?.getD b = (as.filterMap f).getLast?.getD ((f a).getD b) := by
  rw [List.filterMap_cons]
  cases f a with
  | none => rfl
  | some c =>
    rw [List.getLast?_cons]
    cases (as.filterMap f).getLast? <;> rfl

namespace Machine

/-- A field that each command either writes or leaves has what was written last. -/
theorem run_field {α : Type} {field : Machine → α} {write? : Command → Option α}
    (h : ∀ m c, field (m.execute c) = (write? c).getD (field m)) (m : Machine)
    (cs : List Command) :
    field (m.run cs) = (cs.filterMap write?).getLast?.getD (field m) := by
  induction cs generalizing m with
  | nil => rfl
  | cons c cs ih =>
    rw [run_cons, ih, h, getD_getLast?_filterMap_cons]

variable (m : Machine) (cs : List Command)

theorem speed_run : (m.run cs).speed = (cs.filterMap speed?).getLast?.getD m.speed :=
  run_field (fun m c => (m.perform c).speed_record c |>.trans (by cases c <;> rfl)) m cs

theorem power_run : (m.run cs).power = (cs.filterMap power?).getLast?.getD m.power :=
  run_field (fun m c => (m.perform c).power_record c |>.trans (by cases c <;> rfl)) m cs

theorem laserOn_run : (m.run cs).laserOn = (cs.filterMap laser?).getLast?.getD m.laserOn :=
  run_field (fun m c => (m.perform c).laserOn_record c |>.trans (by cases c <;> rfl)) m cs

theorem paused_run : (m.run cs).paused = m.paused ∧ (m.run cs).state = m.state := by
  induction cs generalizing m with
  | nil => exact ⟨rfl, rfl⟩
  | cons c cs ih =>
    obtain ⟨hp, hs⟩ := ih (m.execute c)
    rw [run_cons, hp, hs, execute, paused_record, state_record]
    cases c <;> exact ⟨rfl, rfl⟩

variable {m cs}

theorem execute_absolute (hm : m.incremental = false) {c : Command} (hc : c.isAbsolute) :
    (m.execute c).incremental = false ∧ (m.execute c).position = c.target?.getD m.position := by
  rw [execute, position_record, incremental_record]
  cases c with
  | move x y =>
    refine ⟨hm, ?_⟩
    change (if m.incremental then _ else (x, y)) = (x, y)
    rw [hm]
    rfl
  | setIncremental => cases hc
  | home => cases hc
  | setAbsolute => exact ⟨rfl, rfl⟩
  | reset => exact ⟨rfl, rfl⟩
  | _ => exact ⟨hm, rfl⟩

theorem run_absolute (hm : m.incremental = false) (hcs : ∀ c ∈ cs, c.isAbsolute) :
    (m.run cs).incremental = false ∧
      (m.run cs).position = (cs.filterMap target?).getLast?.getD m.position := by
  induction cs generalizing m with
  | nil => exact ⟨hm, rfl⟩
  | cons c cs ih =>
    obtain ⟨hc, hcs⟩ := List.forall_mem_cons.mp hcs
    obtain ⟨hi, hp⟩ := execute_absolute hm hc
    obtain ⟨ihi, ihp⟩ := ih hi hcs
    refine ⟨ihi, ?_⟩
    rw [run_cons, ihp, hp, getD_getLast?_filterMap_cons]

theorem run_placed (h : Placed cs) (m : Machine) :
    (m.run cs).incremental = false ∧
      (m.run cs).position = (cs.filterMap target?).getLast?.getD m.position := by
  obtain ⟨rest, rfl, hrest⟩ := h
  let started := m.run [.modeRapid, .setAbsolute]
  have hi : started.incremental = false := incremental_record ..
  have hp : started.position = m.position := by simp [started, execute, perform]
  have hrun := run_absolute hi hrest
  rwa [hp] at hrun

/-- A move in placed commands leads to its own coordinates. -/
theorem position_run_move (h : Placed cs) {before after : List Command} {x y : Float}
    (hcs : cs = before ++ .move x y :: after) (m : Machine) :
    (m.run (before ++ [.move x y])).position = (x, y) := by
  obtain ⟨rest, hrest, habs⟩ := h
  rw [hcs] at hrest
  have hplaced : Placed (before ++ [.move x y]) := by
    match before, hrest with
    | [], hrest => cases hrest
    | [a], hrest => cases hrest
    | a :: b :: before, hrest =>
      cases hrest
      refine ⟨before ++ [.move x y], rfl, fun c hc => habs c ?_⟩
      change c ∈ before ++ .move x y :: after
      rw [List.append_cons]
      exact List.mem_append_left _ hc
  rw [(run_placed hplaced m).2]
  simp [target?]

end Machine

namespace Operation

theorem isWork_of_mem_body (o : Operation) {c : Command} (hc : c ∈ o.body) : c.isWork := by
  unfold body at hc
  split at hc
  · rcases List.mem_cons.mp hc with rfl | hc
    · rfl
    · obtain ⟨s, -, hc⟩ := List.mem_flatMap.mp hc
      simp only [scanCommands, List.mem_cons, List.not_mem_nil, or_false] at hc
      rcases hc with rfl | rfl | rfl | rfl | rfl <;> rfl
  · rw [plotBody_eq, approach_eq] at hc
    rcases List.mem_append.mp hc with hc | hc
    · obtain ⟨p, -, rfl⟩ := Option.map_eq_some_iff.mp (Option.mem_toList.mp hc)
      rfl
    · rcases List.mem_cons.mp hc with rfl | hc
      · rfl
      · obtain ⟨p, -, rfl⟩ := List.mem_map.mp hc
        rfl

theorem filterMap_body {α : Type} {f : Command → Option α} (hf : ∀ c, c.isWork → f c = none)
    (o : Operation) : o.body.filterMap f = [] :=
  List.filterMap_eq_nil_iff.mpr fun _ hc => hf _ (o.isWork_of_mem_body hc)

theorem getLast?_speeds (o : Operation) :
    (o.generate.filterMap speed?).getLast? = some o.settings.speed := by
  rw [filterMap_generate, filterMap_body fun _ => speed?_of_isWork]
  rfl

theorem getLast?_powers (o : Operation) :
    (o.generate.filterMap power?).getLast? = some o.settings.power := by
  rw [filterMap_generate, filterMap_body fun _ => power?_of_isWork]
  rfl

theorem getLast?_lasers (o : Operation) : (o.generate.filterMap laser?).getLast? = some false := by
  rw [filterMap_generate]
  exact List.getLast?_concat

theorem isAbsolute_of_mem_generate (o : Operation) {c : Command} (hc : c ∈ o.generate) :
    c.isAbsolute := by
  obtain ⟨before, after, h⟩ := List.append_of_mem hc
  have hfits := (allFit_iff [] _).mp o.allFit_generate before c after h
  have hallowed := hfits.allowed
  cases c with
  | setIncremental => exact hallowed.elim
  | home => exact hallowed.elim
  | _ => rfl

end Operation

/-- How the stream of a job with these settings leaves a machine. -/
structure Outcome (settings : LaserSettings) (stream : List Command) (m m' : Machine) : Prop where
  run : m' = m.run stream
  absolute : m'.incremental = false
  laserOff : m'.laserOn = false
  speed : m'.speed = settings.speed
  power : m'.power = settings.power
  position : m'.position = (stream.filterMap target?).getLast?.getD m.position
  moves : ∀ before x y after, stream = before ++ .move x y :: after →
    (m.run (before ++ [.move x y])).position = (x, y)
  paused : m'.paused = m.paused
  state : m'.state = m.state

/-- Two machines that are left alike, but for the position if nothing moves. -/
structure SameOutcome (settings : LaserSettings) (stream : List Command)
    (m₁ m₁' m₂ m₂' : Machine) : Prop where
  left : Outcome settings stream m₁ m₁'
  right : Outcome settings stream m₂ m₂'
  position : stream.filterMap target? ≠ [] → m₁'.position = m₂'.position

def Job.streams (jobs : List Job) : List Command :=
  jobs.flatMap fun j => j.operation.generate

namespace Job

theorem streams_concat (jobs : List Job) (j : Job) :
    streams (jobs ++ [j]) = streams jobs ++ j.operation.generate := by
  rw [streams, List.flatMap_append, List.flatMap_singleton]
  rfl

theorem isAbsolute_of_mem_streams {jobs : List Job} {c : Command} (hc : c ∈ streams jobs) :
    c.isAbsolute := by
  obtain ⟨j, -, hc⟩ := List.mem_flatMap.mp hc
  exact j.operation.isAbsolute_of_mem_generate hc

theorem placed_streams {jobs : List Job} (h : jobs ≠ []) : Placed (streams jobs) := by
  obtain ⟨j, jobs, rfl⟩ := List.exists_cons_of_ne_nil h
  exact ⟨(streams (j :: jobs)).drop 2, rfl,
    fun _ hc => isAbsolute_of_mem_streams (List.mem_of_mem_drop hc)⟩

theorem getLast?_streams_concat {α : Type} {f : Command → Option α} {j : Job} {a : α}
    (h : (j.operation.generate.filterMap f).getLast? = some a) (jobs : List Job) :
    ((streams (jobs ++ [j])).filterMap f).getLast? = some a := by
  rw [streams_concat, List.filterMap_append, List.getLast?_append, h]
  rfl

theorem outcome_streams (jobs : List Job) (j : Job) (m : Machine) :
    Outcome j.operation.settings (streams (jobs ++ [j])) m (m.run (streams (jobs ++ [j]))) := by
  have hplaced : Placed (streams (jobs ++ [j])) := placed_streams (List.concat_ne_nil j jobs)
  obtain ⟨habsolute, hposition⟩ := Machine.run_placed hplaced m
  obtain ⟨hpaused, hstate⟩ := m.paused_run (streams (jobs ++ [j]))
  refine ⟨rfl, habsolute, ?_, ?_, ?_, hposition,
    fun _ _ _ _ h => Machine.position_run_move hplaced h m, hpaused, hstate⟩
  · rw [m.laserOn_run, getLast?_streams_concat j.operation.getLast?_lasers]
    rfl
  · rw [m.speed_run, getLast?_streams_concat j.operation.getLast?_speeds]
    rfl
  · rw [m.power_run, getLast?_streams_concat j.operation.getLast?_powers]
    rfl

theorem sameOutcome_streams (jobs : List Job) (j : Job) (m₁ m₂ : Machine) :
    SameOutcome j.operation.settings (streams (jobs ++ [j]))
      m₁ (m₁.run (streams (jobs ++ [j]))) m₂ (m₂.run (streams (jobs ++ [j]))) := by
  have h₁ := outcome_streams jobs j m₁
  have h₂ := outcome_streams jobs j m₂
  refine ⟨h₁, h₂, fun hmoves => ?_⟩
  obtain ⟨t, ht⟩ := Option.ne_none_iff_exists'.mp (mt List.getLast?_eq_none_iff.mp hmoves)
  rw [h₁.position, h₂.position, ht]
  rfl

end Job

namespace Workshop

variable {μ : Type} [Interpreter μ]

/-- Runs as many as there are jobs empty the queue in order. -/
theorem handleAll_replicate_run (s : Spooler) (m : μ) :
    (⟨s, m⟩ : Workshop μ).handleAll (.replicate s.queue.length .run) =
      ⟨.empty, (Job.streams s.queue).foldl Interpreter.command m⟩ := by
  obtain ⟨queue⟩ := s
  induction queue generalizing m with
  | nil => rfl
  | cons j queue ih =>
    rw [Job.streams, List.flatMap_cons, List.foldl_append]
    exact ih _

end Workshop

/-- A job and a whole queue of jobs leave any two machines alike: under absolute positioning, with
the laser off, the speed and power of the last job and the head where the last move went, which each
move reached. Only if nothing moves the head stays where it was. -/
theorem Spooler.outcome_independent {s : Spooler} {jobs : List Job} {last : Job}
    (h : s.queue = jobs ++ [last]) (m₁ m₂ : Machine) :
    (∀ j rest, s.queue = j :: rest → ∃ m₁' m₂',
      s.runNext m₁ = (.ok j.operation.generate.length, ⟨rest⟩, m₁') ∧
      s.runNext m₂ = (.ok j.operation.generate.length, ⟨rest⟩, m₂') ∧
      SameOutcome j.operation.settings j.operation.generate m₁ m₁' m₂ m₂') ∧
    ∃ m₁' m₂',
      (⟨s, m₁⟩ : Workshop Machine).handleAll (.replicate s.queue.length .run) =
        ⟨.empty, m₁'⟩ ∧
      (⟨s, m₂⟩ : Workshop Machine).handleAll (.replicate s.queue.length .run) =
        ⟨.empty, m₂'⟩ ∧
      SameOutcome last.operation.settings (Job.streams s.queue) m₁ m₁' m₂ m₂' := by
  refine ⟨fun j rest hq => ⟨_, _, runNext_of_cons hq m₁, runNext_of_cons hq m₂, ?_⟩,
    ⟨_, _, Workshop.handleAll_replicate_run s m₁, Workshop.handleAll_replicate_run s m₂, ?_⟩⟩
  · have hone : Job.streams [j] = j.operation.generate := List.flatMap_singleton ..
    have hsame := Job.sameOutcome_streams [] j m₁ m₂
    rwa [List.nil_append, hone] at hsame
  · rw [h]
    exact Job.sameOutcome_streams jobs last m₁ m₂

theorem Spooler.outcome_independent_cut_engrave :
    let line : Element := ⟨.path (.polyline [⟨1, 2⟩, ⟨3, 2⟩] false), .identity, ∅⟩
    let cut : Job := ⟨⟨7⟩, (Operation.ofType .cut).push line⟩
    let engrave : Job := ⟨⟨4⟩, .ofType .engrave⟩
    let s := ((empty.send cut.id cut.operation).2.send engrave.id engrave.operation).2
    let used : Machine := { Machine.fresh false with
      position := (5.0, -1.0), speed := 80.0, incremental := true, laserOn := true, paused := true }
    s.queue = [cut] ++ [engrave] ∧ ∃ m₁' m₂',
      (⟨s, .fresh true⟩ : Workshop Machine).handleAll [.run, .run] = ⟨.empty, m₁'⟩ ∧
      (⟨s, used⟩ : Workshop Machine).handleAll [.run, .run] = ⟨.empty, m₂'⟩ ∧
      SameOutcome engrave.operation.settings (Job.streams [cut, engrave])
        (.fresh true) m₁' used m₂' ∧
      m₁'.position = m₂'.position := by
  intro line cut engrave s used
  have hqueue : s.queue = [cut] ++ [engrave] := rfl
  obtain ⟨-, m₁', m₂', h₁, h₂, hsame⟩ := outcome_independent hqueue (.fresh true) used
  exact ⟨hqueue, m₁', m₂', h₁, h₂, hsame, hsame.position (List.cons_ne_nil _ _)⟩

end Engraver
