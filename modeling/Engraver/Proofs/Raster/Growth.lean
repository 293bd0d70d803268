import Engraver.Proofs.Raster.MaximalRuns

/-! # Runs that grow pixel by pixel

From the first pixel of a sweep on, a run takes in pixels of its power and ends in front of another.
The runs are the maximal ones, and the strokes over them those of the sweep.
-/

namespace Engraver

namespace Run

def grow (r : Run) : List Float → List Run
  | [] => [r]
  | v :: vs => if v == r.power then grow ⟨r.length + 1, r.power⟩ vs else r :: grow ⟨1, v⟩ vs

/-- Puts a run in front of others, into the first if it has the power of the run. -/
def prepend (r : Run) : List Run → List Run
  | [] => [r]
  | q :: qs => if q.power == r.power then ⟨r.length + q.length, r.power⟩ :: qs else r :: q :: qs

theorem prepend_one (v : Float) (rs : List Run) : prepend ⟨1, v⟩ rs = push v rs := by
  cases rs with
  | nil => rfl
  | cons r rs =>
    simp only [prepend, push]
    rw [Nat.add_comm, BEq.comm]

theorem prepend_push_of_eq {r : Run} {v : Float} (hv : (v == r.power) = true) (rs : List Run) :
    prepend r (push v rs) = prepend ⟨r.length + 1, r.power⟩ rs := by
  cases rs with
  | nil => exact if_pos hv
  | cons q qs =>
    by_cases hq : (v == q.power) = true
    · have hpower : (q.power == r.power) = true := PartialEquivBEq.trans (BEq.symm hq) hv
      simp only [push, prepend, if_pos hq, if_pos hv, if_pos hpower]
      rw [Nat.add_right_comm, Nat.add_assoc]
    · have hpower : ¬ (q.power == r.power) = true := fun h =>
        hq (PartialEquivBEq.trans hv (BEq.symm h))
      simp only [push, prepend, if_neg hq, if_pos hv, if_neg hpower]

theorem prepend_push_of_ne {r : Run} {v : Float} (hv : ¬ (v == r.power) = true) (rs : List Run) :
    prepend r (push v rs) = r :: push v rs := by
  cases rs with
  | nil => exact if_neg hv
  | cons q qs =>
    rw [push]
    split <;> exact if_neg hv

theorem grow_eq_prepend (r : Run) (vs : List Float) : grow r vs = prepend r (ofValues vs) := by
  induction vs generalizing r with
  | nil => rfl
  | cons v vs ih =>
    have hpush : ofValues (v :: vs) = push v (ofValues vs) := rfl
    unfold grow
    split
    case isTrue hv => rw [ih, hpush, prepend_push_of_eq hv]
    case isFalse hv => rw [ih, hpush, prepend_push_of_ne hv, prepend_one]

theorem ofValues_cons (v : Float) (vs : List Float) : ofValues (v :: vs) = grow ⟨1, v⟩ vs := by
  rw [grow_eq_prepend, prepend_one]
  rfl

end Run

namespace Span

def beyond (forward : Bool) (edge n : Nat) : Nat :=
  if forward then edge + n else edge - n

theorem beyond_succ (forward : Bool) (edge n : Nat) :
    beyond forward (beyond forward edge n) 1 = beyond forward edge (n + 1) := by
  cases forward <;> rfl

theorem beyond_true {pos last : Nat} (h : pos ≤ last) :
    beyond true pos (last + 1 - pos) = last + 1 :=
  Nat.add_sub_of_le (Nat.le_succ_of_le h)

theorem beyond_false {pos first : Nat} (h : first ≤ pos) :
    beyond false (pos + 1) (pos + 1 - first) = first :=
  Nat.sub_sub_self (Nat.le_succ_of_le h)

theorem walk_succ (forward : Bool) (edge n : Nat) :
    walk forward edge (n + 1) = ahead forward edge 0 :: walk forward (beyond forward edge 1) n := by
  rw [Nat.add_comm]
  exact walk_add forward edge 1 n

end Span

namespace Scan

open Engraver.Span

def strokesAhead (s : Scan) (line : Nat) (forward : Bool) (edge n : Nat) : List Stroke :=
  strokesFrom line forward edge (Run.ofValues ((walk forward edge n).map (s.sample line)))

/-- The strokes over a run of `m` pixels from an edge onwards that may go on, and `n` pixels behind
it. -/
def strokesGrown (s : Scan) (line : Nat) (forward : Bool) (edge m n : Nat) (v : Float) :
    List Stroke :=
  strokesFrom line forward edge
    (Run.grow ⟨m, v⟩ ((walk forward (beyond forward edge m) n).map (s.sample line)))

section

variable (s : Scan) (line : Nat) (forward : Bool) (edge : Nat)

theorem strokesAhead_succ (n : Nat) :
    s.strokesAhead line forward edge (n + 1) =
      s.strokesGrown line forward edge 1 n (s.sample line (ahead forward edge 0)) := by
  unfold strokesAhead strokesGrown
  rw [walk_succ, List.map_cons, Run.ofValues_cons]

variable {s line forward edge}

theorem strokesGrown_succ {m : Nat} {v : Float}
    (h : (s.sample line (ahead forward (beyond forward edge m) 0) == v) = true) (n : Nat) :
    s.strokesGrown line forward edge m (n + 1) v =
      s.strokesGrown line forward edge (m + 1) n v := by
  unfold strokesGrown
  rw [walk_succ, List.map_cons, Run.grow, if_pos h, beyond_succ]

theorem strokesGrown_eq_cons {m n : Nat} {v : Float}
    (h : 0 < n → ¬ (s.sample line (ahead forward (beyond forward edge m) 0) == v) = true) :
    s.strokesGrown line forward edge m n v =
      ⟨line, beyond forward edge m, 0, v⟩ ::
        s.strokesAhead line forward (beyond forward edge m) n := by
  cases n with
  | zero => rfl
  | succ n =>
    rw [strokesAhead_succ]
    unfold strokesGrown
    rw [walk_succ, List.map_cons, Run.grow, if_neg (h n.succ_pos)]
    rfl

end

variable {s : Scan}

theorem Framed.sweep_eq_strokesAhead {p : Span} (h : s.Framed p) (forward : Bool) :
    p.sweep forward = s.strokesAhead p.line forward (p.start forward) p.values.length := by
  unfold Span.sweep strokesAhead
  rw [← h.swept_eq, h.map_sample_swept]

/-- Two pixels that burn bound the span of their line if nothing outside them does. -/
theorem exists_span?_eq {line lo hi : Nat} (hlo : 0.0 < s.sample line lo)
    (hbefore : ∀ i < lo, ¬ 0.0 < s.sample line i) (hhi : 0.0 < s.sample line hi)
    (hbehind : ∀ i, hi < i → ¬ 0.0 < s.sample line i) :
    ∃ p, s.span? line = some p ∧ s.Framed p ∧ p.line = line ∧ p.first = lo ∧ p.last = hi + 1 := by
  cases hp : s.span? line with
  | none => exact absurd hlo (not_burning_of_span?_eq_none hp lo)
  | some p =>
    obtain ⟨rfl, hf⟩ := framed_of_span? hp
    have hpos := hf.length_pos
    have hlo_inside := hf.burns_inside lo hlo
    have hhi_inside := hf.burns_inside hi hhi
    have hfirst : ¬ p.first < lo := fun hlt => hbefore _ hlt hf.burns_first
    have hlast : ¬ hi < p.last - 1 := fun hlt => hbehind _ hlt hf.burns_last
    exact ⟨p, rfl, hf, rfl, by omega, by omega⟩

theorem span?_eq_none {line : Nat} (h : ∀ i < s.lineLength, ¬ 0.0 < s.sample line i) :
    s.span? line = none := by
  refine ofLine?_eq_none line fun v hv => ?_
  obtain ⟨i, hi, rfl⟩ := List.mem_map.mp hv
  exact h i (List.mem_range.mp hi)

end Scan

end Engraver
