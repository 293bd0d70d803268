import Engraver.Grbl.Emulator

/-! # Calls of the machine

The emulator reaches its machine through commands and signals only. What it calls depends on the
bytes, the modes and the unfinished line, never on the machine, which follows the calls in order.
-/

namespace Engraver

inductive Call where
  | command (c : Command)
  | signal (s : Signal)

namespace Call

def command? : Call → Option Command
  | command c => some c
  | signal _ => none

def signal? : Call → Option Signal
  | command _ => none
  | signal s => some s

def commands (cs : List Call) : List Command :=
  cs.filterMap command?

def signals (cs : List Call) : List Signal :=
  cs.filterMap signal?

theorem commands_append (as bs : List Call) : commands (as ++ bs) = commands as ++ commands bs :=
  List.filterMap_append

theorem commands_map_command (cs : List Command) : commands (cs.map .command) = cs := by
  rw [commands, List.filterMap_map]
  exact List.filterMap_some

end Call

namespace Machine

def obey (m : Machine) : Call → Machine
  | .command c => m.execute c
  | .signal s => m.signal s

def obeyAll (m : Machine) (cs : List Call) : Machine :=
  cs.foldl obey m

theorem obeyAll_append (m : Machine) (cs ds : List Call) :
    m.obeyAll (cs ++ ds) = (m.obeyAll cs).obeyAll ds :=
  List.foldl_append

theorem obeyAll_map_command (m : Machine) (cs : List Command) :
    m.obeyAll (cs.map .command) = m.run cs :=
  List.foldl_map

end Machine

namespace Incoming

def block? : Incoming → Option Block
  | realtime _ => none
  | line b => some b

theorem block?_realtime (rs : List RealtimeByte) :
    (rs.map Incoming.realtime).filterMap block? = [] :=
  List.filterMap_eq_nil_iff.mpr (by simp [block?])

theorem block?_line (bs : List Block) : (bs.map Incoming.line).filterMap block? = bs := by
  rw [List.filterMap_map]
  exact List.filterMap_some

end Incoming

namespace Modes

def afterIncoming (m : Modes) : Incoming → Modes
  | .realtime _ => m
  | .line b => m.after b

/-- The calls for one thing that the reader handed over. -/
def callsFor (m : Modes) (signs : AxisSigns) : Incoming → List Call
  | .realtime r => (r.signal?.map .signal).toList
  | .line b => (m.commands signs b).map .command

def calls (m : Modes) (signs : AxisSigns) : List Incoming → List Call
  | [] => []
  | i :: is => m.callsFor signs i ++ (m.afterIncoming i).calls signs is

theorem calls_append (m : Modes) (signs : AxisSigns) (is js : List Incoming) :
    m.calls signs (is ++ js) =
      m.calls signs is ++ (is.foldl afterIncoming m).calls signs js := by
  induction is generalizing m with
  | nil => rfl
  | cons i is ih => simp only [List.cons_append, calls, ih, List.append_assoc, List.foldl_cons]

/-- The commands of blocks, each in the modes that those before it leave. -/
def commandsAll (signs : AxisSigns) (m : Modes) : List Block → List Command
  | [] => []
  | b :: bs => m.commands signs b ++ (m.after b).commandsAll signs bs

theorem commands_calls (m : Modes) (signs : AxisSigns) (is : List Incoming) :
    Call.commands (m.calls signs is) = m.commandsAll signs (is.filterMap Incoming.block?) := by
  induction is generalizing m with
  | nil => rfl
  | cons i is ih =>
    rw [calls, Call.commands_append, ih]
    cases i with
    | realtime r => cases r <;> rfl
    | line b =>
      rw [callsFor, Call.commands_map_command]
      rfl

theorem foldl_afterIncoming (m : Modes) (is : List Incoming) :
    is.foldl afterIncoming m = (is.filterMap Incoming.block?).foldl after m := by
  induction is generalizing m with
  | nil => rfl
  | cons i is ih => cases i <;> exact ih _

end Modes

namespace Emulator

def receiveAll (e : Emulator) (is : List Incoming) : Emulator :=
  is.foldl receive e

def calls (e : Emulator) (bs : List UInt8) : List Call :=
  e.modes.calls e.signs (e.reader.feedAll bs).2

variable (e : Emulator)

theorem receiveAll_append (is js : List Incoming) :
    e.receiveAll (is ++ js) = (e.receiveAll is).receiveAll js :=
  List.foldl_append

theorem receive_reader (s : LineReader) (i : Incoming) :
    receive { e with reader := s } i = { e.receive i with reader := s } := by
  cases i with
  | realtime r => cases r <;> rfl
  | line b => rfl

theorem receiveAll_reader (s : LineReader) (is : List Incoming) :
    receiveAll { e with reader := s } is = { e.receiveAll is with reader := s } := by
  induction is generalizing e with
  | nil => rfl
  | cons i is ih =>
    change receiveAll (receive { e with reader := s } i) is = _
    rw [receive_reader]
    exact ih (e.receive i)

/-- Writing bytes is reading them and acting on what the reader hands over. -/
theorem write_eq (bs : List UInt8) :
    e.write bs =
      { e.receiveAll (e.reader.feedAll bs).2 with reader := (e.reader.feedAll bs).1 } := by
  induction bs generalizing e with
  | nil => rfl
  | cons b bs ih =>
    have hstep : e.writeByte b =
        { e.receiveAll (e.reader.feed b).2.toList with reader := (e.reader.feed b).1 } :=
      receiveAll_reader e _ _
    rw [write_cons, ih, hstep]
    simp only [receiveAll_reader, LineReader.feedAll, receiveAll_append]

theorem receive_eq (i : Incoming) :
    (e.receive i).signs = e.signs ∧ (e.receive i).modes = e.modes.afterIncoming i ∧
      (e.receive i).machine = e.machine.obeyAll (e.modes.callsFor e.signs i) := by
  cases i with
  | realtime r => cases r <;> exact ⟨rfl, rfl, rfl⟩
  | line b => exact ⟨rfl, rfl, (Machine.obeyAll_map_command ..).symm⟩

theorem receiveAll_eq (is : List Incoming) :
    (e.receiveAll is).signs = e.signs ∧
      (e.receiveAll is).modes = is.foldl Modes.afterIncoming e.modes ∧
      (e.receiveAll is).machine = e.machine.obeyAll (e.modes.calls e.signs is) := by
  induction is generalizing e with
  | nil => exact ⟨rfl, rfl, rfl⟩
  | cons i is ih =>
    obtain ⟨hs, hm, hc⟩ := e.receive_eq i
    obtain ⟨ihs, ihm, ihc⟩ := ih (e.receive i)
    rw [hs] at ihs ihc
    rw [hm] at ihm ihc
    refine ⟨ihs, ihm, ?_⟩
    rw [Modes.calls, Machine.obeyAll_append, ← hc]
    exact ihc

theorem write_reader (bs : List UInt8) : (e.write bs).reader = (e.reader.feedAll bs).1 := by
  rw [write_eq]

theorem write_signs (bs : List UInt8) : (e.write bs).signs = e.signs := by
  rw [write_eq]
  exact (e.receiveAll_eq _).1

theorem write_modes (bs : List UInt8) :
    (e.write bs).modes = (e.reader.feedAll bs).2.foldl Modes.afterIncoming e.modes := by
  rw [write_eq]
  exact (e.receiveAll_eq _).2.1

theorem write_machine (bs : List UInt8) :
    (e.write bs).machine = e.machine.obeyAll (e.calls bs) := by
  rw [write_eq]
  exact (e.receiveAll_eq _).2.2

theorem calls_append (as bs : List UInt8) :
    e.calls (as ++ bs) = e.calls as ++ (e.write as).calls bs := by
  simp only [calls, LineReader.feedAll_append, Modes.calls_append, write_signs, write_modes,
    write_reader]

end Emulator
end Engraver
