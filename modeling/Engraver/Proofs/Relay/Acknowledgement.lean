import Engraver.Proofs.Grbl.Replies
import Engraver.Relay.Server

/-! # Acknowledgements through the relay

The relay takes one reply after each chunk, and an emulator keeps the newest only. So a chunk is
acknowledged once if a line end is the last byte in it that is answered, and else not at all. Only
streams that are cut behind every line end with an answer behind it get one acknowledgement a line.
-/

namespace Engraver
namespace Emulator

/-- Behind a line end nothing in the chunk is answered. -/
def Settled (chunk : List UInt8) : Prop :=
  ∀ before b after, chunk = before ++ b :: after → ByteKind.isLineEnd b →
    ∀ c ∈ after, isAnswered c = false

theorem settled_cons {b : UInt8} {bs : List UInt8} :
    Settled (b :: bs) ↔
      (ByteKind.isLineEnd b → ∀ c ∈ bs, isAnswered c = false) ∧ Settled bs := by
  constructor
  · intro h
    exact ⟨h [] b bs rfl, fun before c after hbs => h (b :: before) c after (by rw [hbs]; rfl)⟩
  · rintro ⟨hb, hbs⟩ before c after he
    cases before with
    | nil =>
      obtain ⟨rfl, rfl⟩ := List.cons.inj he
      exact hb
    | cons d before => exact hbs before c after (List.cons.inj he).2

theorem endsAcknowledged_cons (b : UInt8) (bs : List UInt8) :
    endsAcknowledged (b :: bs) =
      if bs.any isAnswered then endsAcknowledged bs else ByteKind.isLineEnd b := by
  induction bs using List.reverseRecOn with
  | nil =>
    change endsAcknowledged ([] ++ [b]) = _
    rw [endsAcknowledged_concat]
    cases hb : ByteKind.isLineEnd b <;> simp [isAnswered, endsAcknowledged, hb]
  | append_singleton bs c ih =>
    rw [← List.cons_append, endsAcknowledged_concat, endsAcknowledged_concat, ih, List.any_append]
    cases hc : isAnswered c <;> simp [hc]

theorem endsAcknowledged_of_not_answered {bs : List UInt8} (h : ∀ b ∈ bs, isAnswered b = false) :
    endsAcknowledged bs = false := by
  have hfind : bs.reverse.find? isAnswered = none :=
    List.find?_eq_none.mpr fun b hb => by simp [h b (List.mem_reverse.mp hb)]
  rw [endsAcknowledged, hfind]
  rfl

/-- A chunk is acknowledged as often as it has line ends if it is settled, and else less often. -/
theorem toNat_endsAcknowledged (chunk : List UInt8) :
    (endsAcknowledged chunk).toNat ≤ chunk.countP ByteKind.isLineEnd ∧
      ((endsAcknowledged chunk).toNat = chunk.countP ByteKind.isLineEnd ↔ Settled chunk) := by
  induction chunk with
  | nil => exact ⟨le_rfl, fun _ before b after h => by simp at h, fun _ => rfl⟩
  | cons b bs ih =>
    obtain ⟨hle, heq⟩ := ih
    rw [settled_cons, endsAcknowledged_cons, List.countP_cons]
    by_cases hbs : ∀ c ∈ bs, isAnswered c = false
    · have hany : ¬ bs.any isAnswered := by simpa using hbs
      have hquiet : bs.countP ByteKind.isLineEnd = 0 := by
        refine List.countP_eq_zero.mpr fun c hc hend => ?_
        have := hbs c hc
        rw [isAnswered, hend] at this
        cases this
      have hsettled : Settled bs := heq.mp (by
        rw [endsAcknowledged_of_not_answered hbs, hquiet]; rfl)
      rw [if_neg hany, hquiet]
      cases ByteKind.isLineEnd b with
      | false => simpa using hsettled
      | true => simpa [hsettled] using hbs
    · have hany : bs.any isAnswered := by simpa using hbs
      rw [if_pos hany]
      cases hb : ByteKind.isLineEnd b with
      | false => simpa using ⟨hle, heq⟩
      | true =>
        -- the line end `b` is lost to an answer behind it
        have hlt : (endsAcknowledged bs).toNat < bs.countP ByteKind.isLineEnd + 1 := by omega
        simpa [hbs] using ⟨hlt.le, hlt.ne⟩

end Emulator

namespace RelaySlot

open Emulator

def relayEach {π : Type} [Channel π] (s : RelaySlot π) : List (List UInt8) → List (Option String)
  | [] => []
  | chunk :: chunks => (s.relay chunk).1 :: (s.relay chunk).2.relayEach chunks

theorem relay_of_channel_eq {s : RelaySlot Emulator} {e : Emulator} (h : s.channel = some e)
    (chunk : List UInt8) :
    s.relay chunk = ((e.write chunk).reply, { s with channel := some (e.write chunk).read.2 }) := by
  rw [relay, h]
  rfl

theorem relayEach_eq_acknowledgement {s : RelaySlot Emulator} {e : Emulator}
    (hs : s.channel = some e) (he : e.reply ≠ some acknowledgement) (chunks : List (List UInt8)) :
    (s.relayEach chunks).map (· == some acknowledgement) = chunks.map endsAcknowledged := by
  induction chunks generalizing s e with
  | nil => rfl
  | cons chunk chunks ih =>
    have hfirst : ((e.write chunk).reply == some acknowledgement) = endsAcknowledged chunk := by
      rw [Bool.eq_iff_iff, beq_iff_eq, reply_write_eq_acknowledgement_iff he]
    rw [relayEach, relay_of_channel_eq hs, List.map_cons, List.map_cons, hfirst]
    exact congrArg _ (ih rfl nofun)

theorem countP_endsAcknowledged (chunks : List (List UInt8)) :
    chunks.countP endsAcknowledged ≤ chunks.flatten.countP ByteKind.isLineEnd ∧
      (chunks.countP endsAcknowledged = chunks.flatten.countP ByteKind.isLineEnd ↔
        ∀ chunk ∈ chunks, Settled chunk) := by
  induction chunks with
  | nil => simp
  | cons chunk chunks ih =>
    obtain ⟨hle, heq⟩ := ih
    obtain ⟨hle', heq'⟩ := toNat_endsAcknowledged chunk
    have hcount : (chunk :: chunks).countP endsAcknowledged =
        (endsAcknowledged chunk).toNat + chunks.countP endsAcknowledged := by
      rw [List.countP_cons, Nat.add_comm]
      cases endsAcknowledged chunk <;> rfl
    rw [List.flatten_cons, List.countP_append, hcount, List.forall_mem_cons, ← heq, ← heq']
    omega

/-- With an emulator attached that has nothing unread, each chunk returns an acknowledgement if and
only if a line end is the last byte in it that is answered. These are never more than the line ends
of the stream, and as many if and only if nothing is answered behind a line end within a chunk. -/
theorem count_acknowledgements {s : RelaySlot Emulator} {e : Emulator} (hs : s.channel = some e)
    (he : e.reply = none) (chunks : List (List UInt8)) :
    let replies := s.relayEach chunks
    let lineEnds := chunks.flatten.countP ByteKind.isLineEnd
    replies.map (· == some acknowledgement) = chunks.map endsAcknowledged ∧
      replies.count (some acknowledgement) ≤ lineEnds ∧
      (replies.count (some acknowledgement) = lineEnds ↔ ∀ chunk ∈ chunks, Settled chunk) := by
  intro replies lineEnds
  have heach : replies.map (· == some acknowledgement) = chunks.map endsAcknowledged :=
    relayEach_eq_acknowledgement hs (by rw [he]; nofun) chunks
  have hcount : replies.count (some acknowledgement) = chunks.countP endsAcknowledged :=
    calc
      replies.count (some acknowledgement)
        = (replies.map (· == some acknowledgement)).countP id := by rw [List.countP_map]; rfl
      _ = (chunks.map endsAcknowledged).countP id := by rw [heach]
      _ = chunks.countP endsAcknowledged := List.countP_map
  rw [hcount]
  exact ⟨heach, countP_endsAcknowledged chunks⟩

theorem count_acknowledgements_cut_lines :
    let s := (empty.attach (start .default (.fresh true))).pending.2
    (s.relayEach ["G0".toUTF8.toList, " X1\n".toUTF8.toList, "?G0 X2\n".toUTF8.toList]).map
      (· == some acknowledgement) = [false, true, true] := by
  intro s
  have hs : s.channel = some (start .default (.fresh true)).read.2 := rfl
  rw [(count_acknowledgements hs rfl _).1]
  decide +kernel

/-- Two lines in one chunk are acknowledged once. -/
theorem count_acknowledgements_lt :
    let s := (empty.attach (start .default (.fresh true))).pending.2
    let chunk := "G0 X1\nG0 X2\n".toUTF8.toList
    (s.relayEach [chunk]).count (some acknowledgement) = 1 ∧
      chunk.countP ByteKind.isLineEnd = 2 := by
  decide +kernel

end RelaySlot
end Engraver
