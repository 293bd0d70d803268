import Engraver.Grbl.Emulator

/-! # The relay server

At most one channel is attached. What arrives without one waits in a backlog and is delivered to
the next channel before anything else. Clients are served one after another: a client is greeted
with the pending reply, then what is read from it is relayed, and each reply is sent back.
-/

namespace Engraver

class Channel (π : Type) where
  write : π → List UInt8 → π
  read : π → Option String × π

instance : Channel Emulator where
  write := Emulator.write
  read := Emulator.read

structure RelaySlot (π : Type) where
  channel : Option π
  backlog : List UInt8

structure ServerConfig where
  bindAddress : String
  tcpPort : UInt16
  readBuffer : UInt64
  deriving DecidableEq, Repr

namespace ServerConfig

def default : ServerConfig where
  bindAddress := "127.0.0.1"
  tcpPort := 1040
  readBuffer := 1024

def address (c : ServerConfig) : String :=
  c.bindAddress ++ ":" ++ toString c.tcpPort.toNat

/-- What one read of a client's stream returns: a byte at least, and no more than there is room for.
How a stream is cut is up to the transport. -/
structure Chunk (c : ServerConfig) where
  bytes : List UInt8
  nonempty : bytes ≠ []
  fits : bytes.length ≤ max 1 c.readBuffer.toNat

end ServerConfig

namespace RelaySlot

variable {π : Type}

def empty : RelaySlot π := ⟨none, []⟩

def detach (s : RelaySlot π) : Option π × RelaySlot π :=
  (s.channel, { s with channel := none })

variable [Channel π]

def attach (s : RelaySlot π) (c : π) : RelaySlot π :=
  ⟨some (if s.backlog.isEmpty then c else Channel.write c s.backlog), []⟩

def pending (s : RelaySlot π) : Option String × RelaySlot π :=
  match s.channel with
  | some c =>
    let (reply, c) := Channel.read c
    (reply, { s with channel := some c })
  | none => (none, s)

/-- Delivers a chunk and takes the reply; without a channel the chunk waits. -/
def relay (s : RelaySlot π) (chunk : List UInt8) : Option String × RelaySlot π :=
  match s.channel with
  | some c =>
    let (reply, c) := Channel.read (Channel.write c chunk)
    (reply, { s with channel := some c })
  | none => (none, { s with backlog := s.backlog ++ chunk })

variable {cfg : ServerConfig}

def relayAll (s : RelaySlot π) : List cfg.Chunk → List String × RelaySlot π
  | [] => ([], s)
  | chunk :: chunks =>
    let (reply, s) := s.relay chunk.bytes
    let (replies, s) := s.relayAll chunks
    (reply.toList ++ replies, s)

def serveClient (s : RelaySlot π) (chunks : List cfg.Chunk) : String × RelaySlot π :=
  let (greeting, s) := s.pending
  let (replies, s) := s.relayAll chunks
  (String.join (greeting.toList ++ replies), s)

def serveAll (s : RelaySlot π) : List (List cfg.Chunk) → List String × RelaySlot π
  | [] => ([], s)
  | chunks :: rest =>
    let (reply, s) := s.serveClient chunks
    let (replies, s) := s.serveAll rest
    (reply :: replies, s)

end RelaySlot
end Engraver
