import Engraver.Job.Operation
import Engraver.Text.Characters

/-! # The spooler

Operations wait in a queue and are run in the order sent. A job that was removed, cleared or
run is gone from the queue.
-/

namespace Engraver

structure JobId where
  value : Nat
  deriving DecidableEq, Repr

namespace JobId

def groups : List Nat := [8, 4, 4, 4, 12]

def cut : List Nat → List Char → List (List Char)
  | [], _ => []
  | n :: ns, cs => cs.take n :: cut ns (cs.drop n)

def digits : Nat → Nat → List Char
  | 0, _ => []
  | n + 1, v => digits n (v / 16) ++ [Text.hexDigit v]

def render (i : JobId) : String :=
  "-".intercalate ((cut groups (digits 32 i.value)).map String.ofList)

def ungroup? : List Nat → List Char → Option (List Char)
  | [], _ => none
  | [n], cs => if cs.length = n then some cs else none
  | n :: ns, cs =>
    match cs.drop n with
    | '-' :: r => (ungroup? ns r).map (cs.take n ++ ·)
    | _ => none

def grouped? (cs : List Char) : Option JobId := do
  let ds ← ungroup? groups cs
  (Text.hexNumber? ds).map JobId.mk

/-- The 32 digits plain, in groups, in groups and braces, or behind `urn:uuid:`. -/
def parse? (s : String) : Option JobId :=
  let cs := s.toList
  if cs.length = 32 then (Text.hexNumber? cs).map JobId.mk
  else match cs with
    | '\x7b' :: r => if r.getLast? = some '\x7d' then grouped? r.dropLast else none
    | 'u' :: 'r' :: 'n' :: ':' :: 'u' :: 'u' :: 'i' :: 'd' :: ':' :: r => grouped? r
    | cs => grouped? cs

end JobId

structure Job where
  id : JobId
  operation : Operation

structure JobSummary where
  index : Nat
  id : JobId
  kind : OperationType
  status : String
  speed : Float
  settings : String
  estimate : String

structure Spooler where
  queue : List Job

namespace Spooler

def empty : Spooler := ⟨[]⟩

/-- Queues an operation under an identifier that was drawn for it, and returns that. -/
def send (s : Spooler) (id : JobId) (o : Operation) : JobId × Spooler :=
  (id, ⟨s.queue ++ [⟨id, o⟩]⟩)

def clear (s : Spooler) : Spooler :=
  { s with queue := [] }

def remove (s : Spooler) (index : Nat) : Except JobError Job × Spooler :=
  match s.queue[index]? with
  | some j => (.ok j, { s with queue := s.queue.eraseIdx index })
  | none => (.error (.notFound index s.queue.length), s)

def summarise (j : Job) (index : Nat) : JobSummary where
  index := index
  id := j.id
  kind := j.operation.type
  status := j.operation.status
  speed := j.operation.settings.speed
  settings := j.operation.describe
  estimate := j.operation.estimate

def summary (s : Spooler) : List JobSummary :=
  s.queue.mapIdx fun i j => summarise j i

section

variable {μ : Type} [Interpreter μ]

def runNext (s : Spooler) (m : μ) : Except JobError Nat × Spooler × μ :=
  match s.queue with
  | [] => (.error .emptyQueue, s, m)
  | j :: rest =>
    let commands := { j.operation with status := Operation.running }.generate
    (.ok commands.length, { s with queue := rest }, commands.foldl Interpreter.command m)

def signal (_ : Spooler) (m : μ) (x : Signal) : μ :=
  Interpreter.signal m x

def emergencyStop (s : Spooler) (m : μ) : μ :=
  s.signal m .reset

end

end Spooler
end Engraver
