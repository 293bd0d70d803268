import Engraver.Grbl.LineReader
import Engraver.Grbl.Modes
import Engraver.Grbl.StatusReport
import Engraver.Machine

/-! # The emulator

A stream of bytes drives a machine. Realtime bytes act at once, a finished line is executed and
acknowledged. One slot holds the newest reply until it is read.
-/

namespace Engraver

def defaultBanner : String := "Grbl 1.1e ['$' for help]\r\n"

def acknowledgement : String := "ok\r\n"

structure EmulatorConfig where
  signs : AxisSigns
  /-- the first reply; an empty one is none -/
  banner : String

namespace EmulatorConfig

def default : EmulatorConfig where
  signs := ⟨1.0, -1.0⟩
  banner := defaultBanner

end EmulatorConfig

structure Emulator where
  signs : AxisSigns
  modes : Modes
  reader : LineReader
  /-- the newest reply that was not read -/
  reply : Option String
  machine : Machine

namespace Emulator

def start (c : EmulatorConfig) (m : Machine) : Emulator where
  signs := c.signs
  modes := .initial
  reader := .fresh
  reply := if c.banner.isEmpty then none else some c.banner
  machine := m

def report (e : Emulator) : StatusReport where
  state := e.machine.state.name
  x := e.machine.position.1 / e.modes.scale
  y := e.machine.position.2 / e.modes.scale
  z := 0.0
  feed := e.machine.speed / e.modes.feedScale
  power := (Binary.ofFloat e.machine.power).saturate .int64

def execute (e : Emulator) (b : Block) : Emulator :=
  { e with
    modes := e.modes.after b
    machine := e.machine.run (e.modes.commands e.signs b) }

def receive (e : Emulator) : Incoming → Emulator
  | .realtime r => match r.signal? with
    | some s => { e with machine := e.machine.signal s }
    | none => { e with reply := some e.report.format }
  | .line b => { e.execute b with reply := some acknowledgement }

def writeByte (e : Emulator) (b : UInt8) : Emulator :=
  let (reader, incoming) := e.reader.feed b
  incoming.toList.foldl receive { e with reader := reader }

def write (e : Emulator) (bs : List UInt8) : Emulator :=
  bs.foldl writeByte e

def read (e : Emulator) : Option String × Emulator :=
  (e.reply, { e with reply := none })

/-- Writes byte by byte and reads after each; the replies come with the index of their byte. -/
def converse (e : Emulator) (index : Nat) : List UInt8 → List (Nat × String) × Emulator
  | [] => ([], e)
  | b :: bs =>
    let (reply, e) := (e.writeByte b).read
    let (replies, e) := converse e (index + 1) bs
    ((reply.map (index, ·)).toList ++ replies, e)

@[simp] theorem write_nil (e : Emulator) : e.write [] = e := rfl

@[simp] theorem write_cons (e : Emulator) (b : UInt8) (bs : List UInt8) :
    e.write (b :: bs) = (e.writeByte b).write bs := rfl

theorem write_append (e : Emulator) (as bs : List UInt8) :
    e.write (as ++ bs) = (e.write as).write bs :=
  List.foldl_append

end Emulator
end Engraver
