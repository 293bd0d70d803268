import Engraver.Proofs.Number.Bits
import Engraver.Proofs.Raster.Spans

/-! # The way of the head

The head travels from place to place, a leg at a time. The legs of a sweep lie end to end over
its span: every pixel of the span is passed once, at a power that compares equal to its
intensity.
-/

namespace Engraver

namespace Run

/-- The runs stand for consecutive blocks of the values. -/
inductive Cuts : List Run → List Float → Prop
  | nil : Cuts [] []
  | cons {r : Run} {rs : List Run} (block : List Float) {rest : List Float}
      (length : r.length = block.length + 1)
      (same : ∀ v ∈ block, (r.power == v) = true) (tail : Cuts rs rest) :
      Cuts (r :: rs) (r.power :: block ++ rest)

theorem cuts_push {rs : List Run} {vs : List Float} (h : Cuts rs vs) (v : Float) :
    Cuts (push v rs) (v :: vs) := by
  cases h with
  | nil => exact .cons [] rfl (by simp) .nil
  | @cons r _ block _ length same tail =>
    simp only [push]
    split
    case isTrue hv =>
      refine .cons (r.power :: block) (by simp [length]) ?_ tail
      intro w hw
      rcases List.mem_cons.mp hw with rfl | hw
      · exact hv
      · exact PartialEquivBEq.trans hv (same w hw)
    case isFalse =>
      exact .cons [] rfl (by simp) (.cons block length same tail)

/-- The runs of a list cut it into blocks of equal values. -/
theorem cuts_ofValues (vs : List Float) : Cuts (ofValues vs) vs := by
  induction vs with
  | nil => exact .nil
  | cons v vs ih => exact cuts_push ih v

theorem power_eq_getElem {r : Run} {block rest : List Float}
    (same : ∀ v ∈ block, (r.power == v) = true) {i : Nat} (hi : i < (r.power :: block).length)
    (hi' : i < (r.power :: block ++ rest).length)
    (hb : 0.0 < r.power ∨ 0.0 < (r.power :: block ++ rest)[i]) :
    r.power = (r.power :: block ++ rest)[i] := by
  rw [List.getElem_append_left hi] at hb ⊢
  rcases List.mem_cons.mp (List.getElem_mem hi) with he | hm
  · exact he.symm
  · exact Double.eq_of_beq (same _ hm) hb

end Run

/-- A place of the head: an edge between pixels of a line, and scene units past it. -/
structure Place where
  line : Nat
  edge : Nat
  past : Int

structure Leg (π : Type) where
  source : π
  target : π
  power : Float

namespace Leg

variable {π ρ : Type}

def map (f : π → ρ) (l : Leg π) : Leg ρ :=
  ⟨f l.source, f l.target, l.power⟩

def isBurning (l : Leg π) : Bool :=
  0.0 < l.power

def path (p : π) : List (π × Float) → List (Leg π)
  | [] => []
  | (q, v) :: stops => ⟨p, q, v⟩ :: path q stops

def finish (p : π) : List (π × Float) → π
  | [] => p
  | (q, _) :: stops => finish q stops

theorem path_append (p : π) (as bs : List (π × Float)) :
    path p (as ++ bs) = path p as ++ path (finish p as) bs := by
  induction as generalizing p with
  | nil => rfl
  | cons a as ih => simp only [List.cons_append, path, ih, finish]

theorem path_map (f : π → ρ) (p : π) (stops : List (π × Float)) :
    path (f p) (stops.map fun t => (f t.1, t.2)) = (path p stops).map (map f) := by
  induction stops generalizing p with
  | nil => rfl
  | cons t stops ih => simp only [List.map_cons, path, ih, map]

/-- A leg along a line passes a pixel between its edges. -/
def passes (l : Leg Place) (line pos : Nat) : Bool :=
  l.source.line = line && l.target.line = line
    && min l.source.edge l.target.edge ≤ pos && pos < max l.source.edge l.target.edge

structure Along (line lo hi : Nat) (l : Leg Place) : Prop where
  source_line : l.source.line = line
  target_line : l.target.line = line
  source_past : l.source.past = 0
  target_past : l.target.past = 0
  source_edge : lo ≤ l.source.edge ∧ l.source.edge ≤ hi
  target_edge : lo ≤ l.target.edge ∧ l.target.edge ≤ hi

theorem Along.mono {line lo hi lo' hi' : Nat} {l : Leg Place} (h : l.Along line lo hi)
    (hlo : lo' ≤ lo) (hhi : hi ≤ hi') : l.Along line lo' hi' := by
  obtain ⟨_, _, _, _, hs, ht⟩ := h
  exact ⟨‹_›, ‹_›, ‹_›, ‹_›, by omega, by omega⟩

theorem Along.not_passes {line lo hi line' pos : Nat} {l : Leg Place} (h : l.Along line lo hi)
    (hne : line' ≠ line ∨ pos < lo ∨ hi ≤ pos) : l.passes line' pos = false := by
  obtain ⟨hl, _, _, _, hs, ht⟩ := h
  simp only [passes, Bool.and_eq_false_iff, decide_eq_false_iff_not]
  omega

/-- The legs pass every pixel from edge `lo` to edge `hi` once, and where the laser burns or the
intensity `f` does, the power is the intensity. -/
structure Tiles (line lo hi : Nat) (f : Nat → Float) (ls : List (Leg Place)) : Prop where
  along : ∀ l ∈ ls, l.Along line lo hi
  power : ∀ l ∈ ls, ∀ pos, l.passes line pos → 0.0 < l.power ∨ 0.0 < f pos → l.power = f pos
  once : ∀ pos, lo ≤ pos → pos < hi → ls.countP (·.passes line pos) = 1

namespace Tiles

variable {line lo mid hi : Nat} {f : Nat → Float} {as bs : List (Leg Place)}

theorem nil : Tiles line lo lo f [] :=
  ⟨by simp, by simp, by omega⟩

theorem single {l : Leg Place} (ha : l.Along line lo hi)
    (he : min l.source.edge l.target.edge = lo ∧ max l.source.edge l.target.edge = hi)
    (hp : ∀ pos, lo ≤ pos → pos < hi → 0.0 < l.power ∨ 0.0 < f pos → l.power = f pos) :
    Tiles line lo hi f [l] := by
  refine ⟨by simpa using ha, ?_, ?_⟩
  · intro l' hl' pos h
    cases List.mem_singleton.mp hl'
    simp only [passes, Bool.and_eq_true, decide_eq_true_eq] at h
    exact hp pos (by omega) (by omega)
  · intro pos h h'
    rw [List.countP_singleton, if_pos]
    simp only [passes, Bool.and_eq_true, decide_eq_true_eq]
    exact ⟨⟨⟨ha.source_line, ha.target_line⟩, by omega⟩, by omega⟩

theorem countP_eq_zero (h : Tiles line lo hi f as) {line' pos : Nat}
    (hne : line' ≠ line ∨ pos < lo ∨ hi ≤ pos) : as.countP (·.passes line' pos) = 0 := by
  rw [List.countP_eq_zero]
  intro l hl
  rw [(h.along l hl).not_passes hne]
  exact Bool.false_ne_true

theorem append (h : Tiles line lo mid f as) (h' : Tiles line mid hi f bs)
    (hlo : lo ≤ mid) (hhi : mid ≤ hi) : Tiles line lo hi f (as ++ bs) := by
  refine ⟨?_, ?_, ?_⟩
  · intro l hl
    rcases List.mem_append.mp hl with hl | hl
    · exact (h.along l hl).mono le_rfl hhi
    · exact (h'.along l hl).mono hlo le_rfl
  · intro l hl
    rcases List.mem_append.mp hl with hl | hl
    · exact h.power l hl
    · exact h'.power l hl
  · intro pos hp hp'
    rw [List.countP_append]
    rcases Nat.lt_or_ge pos mid with hlt | hge
    · rw [h.once pos hp hlt, h'.countP_eq_zero (.inr (.inl hlt))]
    · rw [h'.once pos hge hp', h.countP_eq_zero (.inr (.inr hge))]

theorem perm (h : Tiles line lo hi f as) (hp : as.Perm bs) : Tiles line lo hi f bs :=
  ⟨fun l hl => h.along l (hp.mem_iff.mpr hl), fun l hl => h.power l (hp.mem_iff.mpr hl),
    fun pos hlo hhi => hp.countP_eq _ ▸ h.once pos hlo hhi⟩

/-- Of the burning legs, one passes a pixel if its intensity burns, and none if not. -/
theorem countP_burning (h : Tiles line lo hi f as) {pos : Nat} (hlo : lo ≤ pos) (hhi : pos < hi) :
    (as.filter isBurning).countP (·.passes line pos) = if 0.0 < f pos then 1 else 0 := by
  rw [List.countP_filter]
  split
  case isTrue hf =>
    rw [← h.once pos hlo hhi]
    refine List.countP_congr fun l hl => ?_
    rw [Bool.and_eq_true, and_iff_left_iff_imp]
    intro hp
    rw [isBurning, h.power l hl pos hp (.inr hf)]
    exact decide_eq_true hf
  case isFalse hf =>
    rw [List.countP_eq_zero]
    intro l hl hc
    obtain ⟨hp, hb⟩ := Bool.and_eq_true_iff.mp hc
    have hb : 0.0 < l.power := of_decide_eq_true hb
    exact hf (h.power l hl pos hp (.inl hb) ▸ hb)

end Tiles
end Leg

def Stroke.stop (k : Stroke) : Place × Float :=
  (⟨k.line, k.edge, k.past⟩, k.power)

namespace Span

open Leg

def startPlace (p : Span) (forward : Bool) : Place :=
  ⟨p.line, p.start forward, 0⟩

def legs (p : Span) (forward : Bool) : List (Leg Place) :=
  path (p.startPlace forward) ((p.sweep forward).map Stroke.stop)

theorem tiles_strokesFrom_rising (line : Nat) {f : Nat → Float} {rs : List Run}
    {vs : List Float} (h : Run.Cuts rs vs) (edge : Nat)
    (hf : ∀ i (hi : i < vs.length), vs[i] = f (edge + i)) :
    Tiles line edge (edge + vs.length) f
      (path ⟨line, edge, 0⟩ ((strokesFrom line true edge rs).map Stroke.stop)) := by
  induction h generalizing edge with
  | nil => exact .nil
  | @cons r rs block rest length same tail ih =>
    have hlen : (r.power :: block ++ rest).length = r.length + rest.length := by
      rw [List.length_append, length, List.length_cons]
    have ht := ih (edge + r.length) fun i hi => by
      rw [Nat.add_assoc, ← hf (r.length + i) (by omega),
        List.getElem_append_right (by simp [length])]
      congr 1; simp [length]
    have hs : Tiles line edge (edge + r.length) f
        [⟨⟨line, edge, 0⟩, ⟨line, edge + r.length, 0⟩, r.power⟩] := by
      refine .single ⟨rfl, rfl, rfl, rfl, by simp, by simp⟩ (by simp) fun pos hlo hhi hb => ?_
      have hv := hf (pos - edge) (by omega)
      rw [Nat.add_sub_cancel' hlo] at hv
      rw [← hv] at hb ⊢
      exact Run.power_eq_getElem same (by rw [List.length_cons]; omega) _ hb
    rw [hlen, ← Nat.add_assoc]
    exact hs.append ht (by omega) (by omega)

theorem tiles_strokesFrom_falling (line : Nat) {f : Nat → Float} {rs : List Run}
    {vs : List Float} (h : Run.Cuts rs vs) (edge : Nat) (hle : vs.length ≤ edge)
    (hf : ∀ i (hi : i < vs.length), vs[i] = f (edge - 1 - i)) :
    Tiles line (edge - vs.length) edge f
      (path ⟨line, edge, 0⟩ ((strokesFrom line false edge rs).map Stroke.stop)) := by
  induction h generalizing edge with
  | nil => exact .nil
  | @cons r rs block rest length same tail ih =>
    have hlen : (r.power :: block ++ rest).length = r.length + rest.length := by
      rw [List.length_append, length, List.length_cons]
    have ht := ih (edge - r.length) (by omega) fun i hi => by
      rw [show edge - r.length - 1 - i = edge - 1 - (r.length + i) by omega,
        ← hf (r.length + i) (by omega), List.getElem_append_right (by simp [length])]
      congr 1; simp [length]
    have hs : Tiles line (edge - r.length) edge f
        [⟨⟨line, edge, 0⟩, ⟨line, edge - r.length, 0⟩, r.power⟩] := by
      refine .single ⟨rfl, rfl, rfl, rfl, by simp, by simp⟩ (by simp) fun pos hlo hhi hb => ?_
      have hv := hf (edge - 1 - pos) (by omega)
      rw [show edge - 1 - (edge - 1 - pos) = pos by omega] at hv
      rw [← hv] at hb ⊢
      exact Run.power_eq_getElem same (by rw [List.length_cons]; omega) _ hb
    rw [hlen, ← Nat.sub_sub]
    exact (ht.append hs (by omega) (by omega)).perm List.perm_append_comm

end Span

namespace Scan

open Engraver.Span Leg

variable {s : Scan}

/-- A sweep in either direction tiles its span with the intensities of the line. -/
theorem Framed.tiles {p : Span} (h : s.Framed p) (forward : Bool) :
    Tiles p.line p.first p.last (s.sample p.line) (p.legs forward) := by
  cases forward with
  | true => exact tiles_strokesFrom_rising p.line (Run.cuts_ofValues _) p.first h.values_eq
  | false =>
    have ht := tiles_strokesFrom_falling p.line (f := s.sample p.line)
      (Run.cuts_ofValues p.values.reverse) p.last (by simp [last]) fun i hi => by
        rw [List.length_reverse] at hi
        rw [List.getElem_reverse, h.values_eq]
        congr 1; unfold last; omega
    rw [List.length_reverse, show p.last - p.values.length = p.first by unfold last; omega] at ht
    exact ht

end Scan
end Engraver
