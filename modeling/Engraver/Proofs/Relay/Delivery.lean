import Engraver.Proofs.Grbl.Replies
import Engraver.Relay.Server

/-! # Delivery through the relay

A channel with a log takes down what reaches it. The logs of the channels that were attached one
after another, and the backlog behind them, are the relayed bytes in order. So an emulator that is
attached once and stays acts on the whole stream, wherever it was cut and whenever replies were
read.
-/

namespace Engraver

inductive Request (π : Type) where
  | relay (chunk : List UInt8)
  | attach (c : π)
  | detach
  | pending

namespace Request

variable {π ρ : Type}

def map (f : π → ρ) : Request π → Request ρ
  | relay chunk => relay chunk
  | attach c => attach (f c)
  | detach => detach
  | pending => pending

def bytes : Request π → List UInt8
  | relay chunk => chunk
  | _ => []

def attaches : Request π → Bool
  | attach _ => true
  | _ => false

def keeps : Request π → Bool
  | relay _ | pending => true
  | attach _ | detach => false

end Request

namespace RelaySlot

variable {π ρ : Type} [Channel π] [Channel ρ]

def handle (s : RelaySlot π) : Request π → RelaySlot π
  | .relay chunk => (s.relay chunk).2
  | .attach c => s.attach c
  | .detach => s.detach.2
  | .pending => s.pending.2

def handleAll (s : RelaySlot π) (rs : List (Request π)) : RelaySlot π :=
  rs.foldl handle s

omit [Channel π] [Channel ρ] in
def map (f : π → ρ) (s : RelaySlot π) : RelaySlot ρ :=
  ⟨s.channel.map f, s.backlog⟩

/-- Bytes wait only without a channel. -/
def Drained (s : RelaySlot π) : Prop :=
  s.channel.isSome → s.backlog = []

theorem drained_handle {s : RelaySlot π} (h : s.Drained) (r : Request π) :
    (s.handle r).Drained := by
  cases r with
  | relay chunk =>
    unfold handle relay
    cases hc : s.channel with
    | none => exact fun hs => nomatch hs
    | some c => exact fun _ => h (by rw [hc]; rfl)
  | attach c => exact fun _ => rfl
  | detach => exact fun hs => nomatch hs
  | pending =>
    unfold handle pending
    cases hc : s.channel with
    | none => exact h
    | some c => exact fun _ => h (by rw [hc]; rfl)

end RelaySlot

/-- A channel with a log, to which every write adds a note. -/
structure Logged {π α : Type} (note : π → List UInt8 → List α) where
  channel : π
  log : List α

namespace Logged

variable {π α : Type} {note : π → List UInt8 → List α}

instance [Channel π] : Channel (Logged note) where
  write c bs := ⟨Channel.write c.channel bs, c.log ++ note c.channel bs⟩
  read c := ((Channel.read c.channel).1, ⟨(Channel.read c.channel).2, c.log⟩)

def fresh (c : π) : Logged note := ⟨c, []⟩

def request (r : Request π) : Request (Logged note) :=
  r.map fresh

theorem attaches_request (r : Request π) :
    (request r : Request (Logged note)).attaches = r.attaches := by
  cases r <;> rfl

theorem bytes_request (r : Request π) : (request r : Request (Logged note)).bytes = r.bytes := by
  cases r <;> rfl

end Logged

namespace RelaySlot

variable {π α : Type} [Channel π] {note : π → List UInt8 → List α}

/-- The logs do not change what the relay does. -/
theorem map_channel_handle (s : RelaySlot (Logged note)) (r : Request π) :
    (s.handle (Logged.request r)).map Logged.channel = (s.map Logged.channel).handle r := by
  obtain ⟨c, backlog⟩ := s
  cases r with
  | relay chunk => cases c <;> rfl
  | attach c' =>
    change RelaySlot.map _ (attach _ _) = attach _ _
    unfold attach map
    cases backlog <;> rfl
  | detach => rfl
  | pending => cases c <;> rfl

theorem map_channel_handleAll (s : RelaySlot (Logged note)) (rs : List (Request π)) :
    (s.handleAll (rs.map Logged.request)).map Logged.channel =
      (s.map Logged.channel).handleAll rs := by
  induction rs generalizing s with
  | nil => rfl
  | cons r rs ih =>
    refine (ih _).trans ?_
    rw [map_channel_handle]
    rfl

end RelaySlot

structure Ledger (π : Type) where
  slot : RelaySlot (Logged fun (_ : π) bytes => bytes)
  /-- the logs of the channels that were replaced or taken away, in order -/
  past : List (List UInt8)

namespace Ledger

variable {π : Type} [Channel π]

omit [Channel π] in
def empty : Ledger π := ⟨.empty, []⟩

omit [Channel π] in
def received (l : Ledger π) : List (List UInt8) :=
  l.past ++ (l.slot.channel.map Logged.log).toList

def handle (l : Ledger π) (r : Request π) : Ledger π where
  slot := l.slot.handle (Logged.request r)
  past := if r.keeps then l.past else l.received

def handleAll (l : Ledger π) (rs : List (Request π)) : Ledger π :=
  rs.foldl handle l

theorem handle_relay (l : Ledger π) (chunk : List UInt8) :
    l.handle (.relay chunk) = ⟨(l.slot.relay chunk).2, l.past⟩ := rfl

theorem handle_attach (l : Ledger π) (c : π) :
    l.handle (.attach c) = ⟨l.slot.attach (.fresh c), l.received⟩ := rfl

theorem handle_detach (l : Ledger π) : l.handle .detach = ⟨l.slot.detach.2, l.received⟩ := rfl

theorem handle_pending (l : Ledger π) : l.handle .pending = ⟨l.slot.pending.2, l.past⟩ := rfl

theorem received_relay (l : Ledger π) (chunk : List UInt8)
    {c : Logged fun (_ : π) bytes => bytes} (hc : l.slot.channel = some c) :
    (l.handle (.relay chunk)).received = l.past ++ [c.log ++ chunk] := by
  rw [handle_relay, RelaySlot.relay, hc]
  rfl

/-- One request delivers or keeps back the bytes that it brings, and no others. -/
theorem received_handle (l : Ledger π) (h : l.slot.Drained) (r : Request π) :
    (l.handle r).received.flatten ++ (l.handle r).slot.backlog =
      l.received.flatten ++ l.slot.backlog ++ r.bytes := by
  cases r with
  | relay chunk =>
    cases hc : l.slot.channel with
    | none => simp [received, handle_relay, RelaySlot.relay, Request.bytes, hc]
    | some c =>
      -- nothing waits while the channel takes the chunk
      have hb : l.slot.backlog = [] := h (by rw [hc]; rfl)
      have hb' : (l.handle (.relay chunk)).slot.backlog = [] := by
        rw [handle_relay, RelaySlot.relay, hc]
        exact hb
      rw [l.received_relay chunk hc, hb, hb']
      simp [received, hc, Request.bytes]
  | attach c =>
    rw [handle_attach, RelaySlot.attach]
    cases hb : l.slot.backlog <;> simp [received, Request.bytes, Logged.fresh, Channel.write]
  | detach => simp [received, handle_detach, RelaySlot.detach, Request.bytes]
  | pending =>
    rw [handle_pending, RelaySlot.pending]
    cases hc : l.slot.channel <;> simp [received, Request.bytes, Channel.read, hc]

theorem drained_handleAll {l : Ledger π} (h : l.slot.Drained) (rs : List (Request π)) :
    (l.handleAll rs).slot.Drained := by
  induction rs generalizing l with
  | nil => exact h
  | cons r rs ih => exact ih (RelaySlot.drained_handle h _)

theorem received_handleAll {l : Ledger π} (h : l.slot.Drained) (rs : List (Request π)) :
    (l.handleAll rs).received.flatten ++ (l.handleAll rs).slot.backlog =
      l.received.flatten ++ l.slot.backlog ++ rs.flatMap Request.bytes := by
  induction rs generalizing l with
  | nil => exact (List.append_nil _).symm
  | cons r rs ih =>
    rw [List.flatMap_cons, ← List.append_assoc, ← l.received_handle h]
    exact ih (RelaySlot.drained_handle h _)

theorem slot_handleAll (l : Ledger π) (rs : List (Request π)) :
    (l.handleAll rs).slot = l.slot.handleAll (rs.map Logged.request) := by
  induction rs generalizing l with
  | nil => rfl
  | cons r rs ih => exact ih (l.handle r)

end Ledger

abbrev LoggedEmulator := Logged Emulator.calls

namespace LoggedEmulator

/-- The emulator behaves as if it had been given the bytes at once, but for its reply. -/
structure Follows (e : Emulator) (bytes : List UInt8) (t : LoggedEmulator) : Prop where
  log : t.log = e.calls bytes
  read : t.channel.read.2 = (e.write bytes).read.2

variable {e : Emulator} {bytes : List UInt8} {t : LoggedEmulator}

theorem follows_fresh (e : Emulator) : Follows e [] (.fresh e) := ⟨rfl, rfl⟩

theorem Follows.write (h : Follows e bytes t) (chunk : List UInt8) :
    Follows e (bytes ++ chunk) (Channel.write t chunk) where
  log := by
    change t.log ++ t.channel.calls chunk = _
    rw [h.log, Emulator.calls_congr h.read, Emulator.calls_append]
  read := by
    change (t.channel.write chunk).read.2 = _
    rw [Emulator.read_write_congr h.read, Emulator.write_append]

theorem Follows.readReply (h : Follows e bytes t) : Follows e bytes (Channel.read t).2 :=
  ⟨h.log, h.read⟩

end LoggedEmulator

namespace RelaySlot

open LoggedEmulator

variable {π : Type} [Channel π]

theorem handleAll_append (s : RelaySlot π) (rs qs : List (Request π)) :
    s.handleAll (rs ++ qs) = (s.handleAll rs).handleAll qs :=
  List.foldl_append

theorem handleAll_of_not_attaches {rs : List (Request π)} (h : ∀ r ∈ rs, r.attaches = false)
    (backlog : List UInt8) :
    handleAll ⟨none, backlog⟩ rs = ⟨none, backlog ++ rs.flatMap Request.bytes⟩ := by
  induction rs generalizing backlog with
  | nil => rw [List.flatMap_nil, List.append_nil]; rfl
  | cons r rs ih =>
    obtain ⟨hr, hrs⟩ := List.forall_mem_cons.mp h
    have hstep : handle ⟨none, backlog⟩ r = ⟨none, backlog ++ r.bytes⟩ := by
      cases r with
      | attach c => cases hr
      | relay chunk => rfl
      | _ => exact congrArg (RelaySlot.mk none) (List.append_nil _).symm
    change handleAll (handle _ r) rs = _
    rw [hstep, ih hrs, List.flatMap_cons, List.append_assoc]

theorem exists_follows_attach (e : Emulator) (backlog : List UInt8) :
    ∃ t : LoggedEmulator,
      attach ⟨none, backlog⟩ (.fresh e) = ⟨some t, []⟩ ∧ Follows e backlog t := by
  cases backlog with
  | nil => exact ⟨.fresh e, rfl, follows_fresh e⟩
  | cons b bs => exact ⟨_, rfl, (follows_fresh e).write (b :: bs)⟩

theorem exists_follows_handle {e : Emulator} {bytes : List UInt8} {t : LoggedEmulator}
    (ht : Follows e bytes t) {r : Request Emulator} (hr : r.keeps) :
    ∃ t' : LoggedEmulator, handle ⟨some t, []⟩ (Logged.request r) = ⟨some t', []⟩ ∧
      Follows e (bytes ++ r.bytes) t' := by
  cases r with
  | relay chunk => exact ⟨_, rfl, (ht.write chunk).readReply⟩
  | pending => exact ⟨_, rfl, (List.append_nil bytes).symm ▸ ht.readReply⟩
  | _ => cases hr

theorem exists_follows_handleAll {e : Emulator} {bytes : List UInt8} {t : LoggedEmulator}
    (ht : Follows e bytes t) {rs : List (Request Emulator)} (h : ∀ r ∈ rs, r.keeps) :
    ∃ t' : LoggedEmulator, handleAll ⟨some t, []⟩ (rs.map Logged.request) = ⟨some t', []⟩ ∧
      Follows e (bytes ++ rs.flatMap Request.bytes) t' := by
  induction rs generalizing bytes t with
  | nil => exact ⟨t, rfl, by rwa [List.flatMap_nil, List.append_nil]⟩
  | cons r rs ih =>
    obtain ⟨hr, hrs⟩ := List.forall_mem_cons.mp h
    obtain ⟨t', hstep, ht'⟩ := exists_follows_handle ht hr
    obtain ⟨t'', hrun, ht''⟩ := ih ht' hrs
    refine ⟨t'', ?_, by rwa [List.flatMap_cons, ← List.append_assoc]⟩
    change handleAll (handle _ (Logged.request r)) _ = _
    rw [hstep, hrun]

/-- An emulator that is attached to an empty relay and stays follows all bytes, also those that
came before it. -/
theorem exists_follows_of_only {e : Emulator} {before after : List (Request Emulator)}
    (hbefore : ∀ r ∈ before, r.attaches = false) (hafter : ∀ r ∈ after, r.keeps) :
    ∃ t : LoggedEmulator,
      handleAll .empty ((before ++ .attach e :: after).map Logged.request) = ⟨some t, []⟩ ∧
      Follows e ((before ++ .attach e :: after).flatMap Request.bytes) t := by
  let earlier : List (Request LoggedEmulator) := before.map Logged.request
  have hearlier : ∀ r ∈ earlier, r.attaches = false := by
    rintro _ hmem
    obtain ⟨r, hr, rfl⟩ := List.mem_map.mp hmem
    rw [Logged.attaches_request, hbefore r hr]
  have hbytes : earlier.flatMap Request.bytes = before.flatMap Request.bytes := by
    simp only [earlier, List.flatMap_map, Logged.bytes_request]
  obtain ⟨t, hattach, ht⟩ := exists_follows_attach e (before.flatMap Request.bytes)
  obtain ⟨t', hrun, ht'⟩ := exists_follows_handleAll ht hafter
  refine ⟨t', ?_, by rwa [List.flatMap_append, List.flatMap_cons]⟩
  rw [List.map_append, handleAll_append, empty, handleAll_of_not_attaches hearlier, hbytes]
  change handleAll (attach _ (Logged.fresh e)) _ = _
  rw [List.nil_append, hattach, hrun]

/-- Whatever is asked of a relay in whatever order, its channels received one after another, and
the backlog holds, the relayed bytes in order; bytes wait only without a channel, and a chunk goes
to the channel that is attached. So one emulator, attached at any time to stay, makes the calls and
comes to the state of an emulator that is given the whole stream at once, but for its reply. -/
theorem received_append_backlog :
    (∀ {π : Type} [Channel π] (rs : List (Request π)),
      let l := Ledger.empty.handleAll rs
      l.slot.map Logged.channel = empty.handleAll rs ∧
      l.received.flatten ++ l.slot.backlog = rs.flatMap Request.bytes ∧
      (l.slot.channel.isSome → l.slot.backlog = []) ∧
      ∀ c chunk, l.slot.channel = some c →
        (l.handle (.relay chunk)).received = l.past ++ [c.log ++ chunk]) ∧
    ∀ (e : Emulator) (before after : List (Request Emulator)),
      (∀ r ∈ before, r.attaches = false) → (∀ r ∈ after, r.keeps) →
      let rs := before ++ .attach e :: after
      let bytes := rs.flatMap Request.bytes
      ∃ t : LoggedEmulator, (empty.handleAll (rs.map Logged.request)).channel = some t ∧
        (empty.handleAll rs).channel = some t.channel ∧
        t.log = e.calls bytes ∧ t.channel.machine = e.machine.obeyAll t.log ∧
        t.channel.read.2 = (e.write bytes).read.2 := by
  constructor
  · intro π _ rs l
    have hdrained : (Ledger.empty : Ledger π).slot.Drained := fun h => nomatch h
    have hslot : l.slot = empty.handleAll (rs.map Logged.request) :=
      Ledger.empty.slot_handleAll rs
    refine ⟨?_, Ledger.received_handleAll hdrained rs, Ledger.drained_handleAll hdrained rs,
      fun c chunk hc => l.received_relay chunk hc⟩
    rw [hslot, map_channel_handleAll]
    rfl
  · intro e before after hbefore hafter rs bytes
    obtain ⟨t, ht, hfollows⟩ := exists_follows_of_only (e := e) hbefore hafter
    have hreal := map_channel_handleAll (empty : RelaySlot LoggedEmulator) rs
    rw [ht] at hreal
    have hmachine := congrArg Emulator.machine hfollows.read
    refine ⟨t, by rw [ht], (congrArg channel hreal).symm, hfollows.log, ?_, hfollows.read⟩
    rw [hfollows.log]
    exact hmachine.trans (e.write_machine bytes)

theorem received_append_backlog_split_number :
    let e := Emulator.start .default (.fresh true)
    let before : List (Request Emulator) := [.relay [0x47, 0x31], .detach, .relay [0x58, 0x31]]
    let after : List (Request Emulator) := [.pending, .relay [0x32, 0x0a], .pending, .relay [0x7e]]
    ∃ t : LoggedEmulator,
      (empty.handleAll ((before ++ .attach e :: after).map Logged.request)).channel = some t ∧
        t.log = e.calls [0x47, 0x31, 0x58, 0x31, 0x32, 0x0a, 0x7e] := by
  intro e before after
  have hbytes : (before ++ .attach e :: after).flatMap Request.bytes =
      [0x47, 0x31, 0x58, 0x31, 0x32, 0x0a, 0x7e] := rfl
  obtain ⟨t, ht, -, hlog, -⟩ :=
    received_append_backlog.2 e before after (by simp [before, Request.attaches])
      (by simp [after, Request.keeps])
  rw [hbytes] at hlog
  exact ⟨t, ht, hlog⟩

end RelaySlot
end Engraver
