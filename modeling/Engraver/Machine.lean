import Engraver.Command

/-! # The machine

What takes commands and signals is an interpreter. The machine is one without hardware: it
follows the commands it is given and records them in order, unless it keeps no history.
-/

namespace Engraver

/-- What commands and signals are given to, one at a time. -/
class Interpreter (μ : Type) where
  command : μ → Command → μ
  signal : μ → Signal → μ

inductive MachineState where
  | idle
  | busy
  deriving DecidableEq, Repr

namespace MachineState

def name : MachineState → String
  | idle => "Idle"
  | busy => "Busy"

def ofName? : String → Option MachineState
  | "Idle" => some idle
  | "Busy" => some busy
  | _ => none

end MachineState

structure Machine where
  keepsHistory : Bool
  commands : Array Command
  signals : Array Signal
  state : MachineState
  position : Float × Float
  speed : Float
  power : Float
  incremental : Bool
  laserOn : Bool
  paused : Bool

namespace Machine

def initialPower : Float := 1000.0

def fresh (keepsHistory : Bool) : Machine where
  keepsHistory := keepsHistory
  commands := #[]
  signals := #[]
  state := .idle
  position := (0.0, 0.0)
  speed := 0.0
  power := initialPower
  incremental := false
  laserOn := false
  paused := false

/-- What a command does, apart from being recorded. -/
def perform (m : Machine) : Command → Machine
  | .setSpeed v => { m with speed := v }
  | .setPower v => { m with power := v }
  | .setAbsolute => { m with incremental := false }
  | .setIncremental => { m with incremental := true }
  | .move x y =>
    { m with position := if m.incremental then (m.position.1 + x, m.position.2 + y) else (x, y) }
  | .laserOn => { m with laserOn := true }
  | .laserOff => { m with laserOn := false }
  | .modeRapid => { m with laserOn := false }
  | .home => { m with position := (0.0, 0.0), laserOn := false }
  | .reset => { m with laserOn := false, incremental := false }
  | _ => m

def record (m : Machine) (c : Command) : Machine :=
  if m.keepsHistory then { m with commands := m.commands.push c } else m

def execute (m : Machine) (c : Command) : Machine :=
  (m.perform c).record c

def run (m : Machine) (cs : List Command) : Machine :=
  cs.foldl execute m

def signal (m : Machine) (s : Signal) : Machine :=
  let m := match s with
    | .pause => { m with paused := true }
    | .resume => { m with paused := false }
    | .reset => { m with paused := false, laserOn := false, commands := #[] }
  if m.keepsHistory then { m with signals := m.signals.push s } else m

instance : Interpreter Machine where
  command := execute
  signal := signal

def takeCommands (m : Machine) : Array Command × Machine :=
  (m.commands, { m with commands := #[] })

section

variable (m : Machine) (c : Command)

@[simp] theorem position_record : (m.record c).position = m.position := by
  unfold record; split <;> rfl

@[simp] theorem incremental_record : (m.record c).incremental = m.incremental := by
  unfold record; split <;> rfl

@[simp] theorem speed_record : (m.record c).speed = m.speed := by
  unfold record; split <;> rfl

@[simp] theorem power_record : (m.record c).power = m.power := by
  unfold record; split <;> rfl

@[simp] theorem laserOn_record : (m.record c).laserOn = m.laserOn := by
  unfold record; split <;> rfl

@[simp] theorem paused_record : (m.record c).paused = m.paused := by
  unfold record; split <;> rfl

@[simp] theorem state_record : (m.record c).state = m.state := by
  unfold record; split <;> rfl

end

@[simp] theorem run_nil (m : Machine) : m.run [] = m := rfl

@[simp] theorem run_cons (m : Machine) (c : Command) (cs : List Command) :
    m.run (c :: cs) = (m.execute c).run cs := rfl

theorem run_append (m : Machine) (cs ds : List Command) :
    m.run (cs ++ ds) = (m.run cs).run ds :=
  List.foldl_append

end Machine
end Engraver
