import Mathlib.Data.List.DropRight
import Mathlib.Data.List.Nodup
import Mathlib.Data.List.TakeWhile
import Engraver.Raster.Scan

/-! # The burning part of a line

The span of a line begins with the first value that burns and ends with the last. A line without
a span has nothing to burn.
-/

namespace Engraver

namespace Span

theorem burns_iff {v : Float} : burns v = true ↔ 0.0 < v :=
  decide_eq_true_iff

def blank (v : Float) : Bool :=
  !burns v

theorem blank_iff {v : Float} : blank v = true ↔ ¬ 0.0 < v := by
  rw [← burns_iff, blank]; simp

theorem ofLine?_eq (line : Nat) (vs : List Float) :
    ofLine? line vs =
      if ((vs.dropWhile blank).rdropWhile blank).isEmpty then none
      else some ⟨line, (vs.takeWhile blank).length, (vs.dropWhile blank).rdropWhile blank⟩ :=
  rfl

theorem ofLine?_eq_some {line : Nat} {vs : List Float} {p : Span}
    (h : ofLine? line vs = some p) :
    p.line = line ∧ ∃ before after, vs = before ++ (p.values ++ after) ∧
      before.length = p.first ∧ (∀ v ∈ before, ¬ 0.0 < v) ∧ (∀ v ∈ after, ¬ 0.0 < v) ∧
      ∃ hn : p.values ≠ [], 0.0 < p.values.head hn ∧ 0.0 < p.values.getLast hn := by
  rw [ofLine?_eq] at h
  split at h
  case isTrue => cases h
  case isFalse hn =>
    cases h
    rw [List.isEmpty_iff] at hn
    have hd : vs.dropWhile blank ≠ [] := by
      intro hc; rw [hc] at hn; exact hn rfl
    have hhead := List.head_dropWhile_not blank hd
    rw [← (List.rdropWhile_prefix blank _).head hn] at hhead
    have hlast := List.rdropWhile_last_not blank _ hn
    refine ⟨rfl, vs.takeWhile blank, (vs.dropWhile blank).rtakeWhile blank, ?_, rfl,
      fun v hv => blank_iff.mp (List.mem_takeWhile_imp hv),
      fun v hv => blank_iff.mp (List.mem_rtakeWhile_imp hv), hn, ?_, ?_⟩
    · rw [List.rdropWhile_append_rtakeWhile, List.takeWhile_append_dropWhile]
    · exact not_not.mp fun hc => Bool.false_ne_true (hhead.symm.trans (blank_iff.mpr hc))
    · exact not_not.mp fun hc => hlast (blank_iff.mpr hc)

theorem not_burning_of_ofLine?_eq_none {line : Nat} {vs : List Float}
    (h : ofLine? line vs = none) : ∀ v ∈ vs, ¬ 0.0 < v := by
  rw [ofLine?_eq] at h
  split at h
  case isFalse => cases h
  case isTrue hn =>
    rw [List.isEmpty_iff, List.rdropWhile_eq_nil_iff] at hn
    intro v hv
    rw [← List.takeWhile_append_dropWhile (p := blank) (l := vs), List.mem_append] at hv
    rcases hv with hv | hv
    · exact blank_iff.mp (List.mem_takeWhile_imp hv)
    · exact blank_iff.mp (hn v hv)

theorem ofLine?_append (line : Nat) {before vs after : List Float}
    (hbefore : ∀ v ∈ before, ¬ 0.0 < v) (hafter : ∀ v ∈ after, ¬ 0.0 < v) (hn : vs ≠ [])
    (hhead : 0.0 < vs.head hn) (hlast : 0.0 < vs.getLast hn) :
    ofLine? line (before ++ (vs ++ after)) = some ⟨line, before.length, vs⟩ := by
  obtain ⟨v, rest, rfl⟩ := List.exists_cons_of_ne_nil hn
  have hv : blank v = false := by
    simpa [blank, burns_iff] using hhead
  have hl : ¬ blank ((v :: rest).getLast hn) := fun h => blank_iff.mp h hlast
  have hbefore : ∀ v ∈ before, blank v := fun v hv => blank_iff.mpr (hbefore v hv)
  have hafter : ∀ v ∈ after.reverse, blank v :=
    fun v hv => blank_iff.mpr (hafter v (List.mem_reverse.mp hv))
  have hkept : ((v :: rest) ++ after).rdropWhile blank = v :: rest := by
    rw [List.rdropWhile, List.reverse_append, List.dropWhile_append_of_pos hafter]
    exact (List.rdropWhile_eq_self_iff ..).mpr fun _ => hl
  have hdrop : (before ++ ((v :: rest) ++ after)).dropWhile blank = (v :: rest) ++ after := by
    rw [List.dropWhile_append_of_pos hbefore]
    simp [hv]
  have htake : (before ++ ((v :: rest) ++ after)).takeWhile blank = before := by
    rw [List.takeWhile_append_of_pos hbefore]
    simp [hv]
  rw [ofLine?_eq, hdrop, hkept, htake]
  rfl

theorem ofLine?_eq_none (line : Nat) {vs : List Float} (h : ∀ v ∈ vs, ¬ 0.0 < v) :
    ofLine? line vs = none := by
  cases hp : ofLine? line vs with
  | none => rfl
  | some p =>
    obtain ⟨-, before, after, rfl, -, -, -, hn, hb, -⟩ := ofLine?_eq_some hp
    exact absurd hb (h _ (by simp))

end Span

namespace Image

theorem intensity_eq_zero_of_le {i : Image} {x y : Nat}
    (h : i.width.toNat ≤ x ∨ i.height.toNat ≤ y) : i.intensity x y = 0.0 := by
  have hn : ¬ (x < i.width.toNat ∧ y < i.height.toNat) := by omega
  simp only [intensity, intensity?, pixel?, if_neg hn, Option.map_none, Option.getD_none]

end Image

namespace Scan

variable {s : Scan}

theorem sample_eq_zero_of_le {line pos : Nat} (h : s.lineCount ≤ line ∨ s.lineLength ≤ pos) :
    s.sample line pos = 0.0 := by
  unfold sample
  unfold lineCount lineLength width height at h
  split
  · exact Image.intensity_eq_zero_of_le (by simp_all)
  · exact Image.intensity_eq_zero_of_le (by simp_all; omega)

/-- A span frames what burns on its line. -/
structure Framed (s : Scan) (p : Span) : Prop where
  inside : p.last ≤ s.lineLength
  values_eq : ∀ i (h : i < p.values.length), p.values[i] = s.sample p.line (p.first + i)
  burns_inside : ∀ pos, 0.0 < s.sample p.line pos → p.first ≤ pos ∧ pos < p.last
  nonempty : p.values ≠ []
  head_burns : 0.0 < p.values.head nonempty
  last_burns : 0.0 < p.values.getLast nonempty

theorem Framed.length_pos {p : Span} (h : s.Framed p) : 0 < p.values.length :=
  List.length_pos_of_ne_nil h.nonempty

theorem Framed.burns_first {p : Span} (h : s.Framed p) : 0.0 < s.sample p.line p.first := by
  have hb := h.head_burns
  rwa [List.head_eq_getElem, h.values_eq] at hb

theorem Framed.burns_last {p : Span} (h : s.Framed p) : 0.0 < s.sample p.line (p.last - 1) := by
  have hb := h.last_burns
  have hlast : p.first + (p.values.length - 1) = p.last - 1 := by
    have hpos := h.length_pos
    unfold Span.last
    omega
  rwa [List.getLast_eq_getElem, h.values_eq, hlast] at hb

theorem values_getElem {line pos : Nat} (h : pos < (s.values line).length) :
    (s.values line)[pos] = s.sample line pos := by
  simp [values]

theorem framed_of_span? {line : Nat} {p : Span} (h : s.span? line = some p) :
    p.line = line ∧ s.Framed p := by
  obtain ⟨rfl, before, after, he, hb, hbefore, hafter, hn, hh, hl⟩ := Span.ofLine?_eq_some h
  have hlen : before.length + (p.values.length + after.length) = s.lineLength := by
    rw [← List.length_append, ← List.length_append, ← he, values, List.length_map,
      List.length_range]
  refine ⟨rfl, ?_, ?_, ?_, hn, hh, hl⟩
  · unfold Span.last; omega
  · intro i hi
    rw [← values_getElem (by simp [values]; omega)]
    simp only [he]
    rw [List.getElem_append_right (by omega), List.getElem_append_left (by omega)]
    congr 1; omega
  · intro pos hp
    have hpos : pos < s.lineLength := by
      by_contra hc
      rw [sample_eq_zero_of_le (.inr (by omega))] at hp
      exact absurd hp (by decide)
    rw [← values_getElem (by simp [values, hpos])] at hp
    simp only [he] at hp
    unfold Span.last
    by_contra hc
    rcases Nat.lt_or_ge pos before.length with hlt | hge
    · rw [List.getElem_append_left hlt] at hp
      exact hbefore _ (List.getElem_mem _) hp
    · rw [List.getElem_append_right hge, List.getElem_append_right (by omega)] at hp
      exact hafter _ (List.getElem_mem _) hp

theorem not_burning_of_span?_eq_none {line : Nat} (h : s.span? line = none) (pos : Nat) :
    ¬ 0.0 < s.sample line pos := by
  rcases Nat.lt_or_ge pos s.lineLength with hlt | hge
  · apply Span.not_burning_of_ofLine?_eq_none h
    exact List.mem_map.mpr ⟨pos, List.mem_range.mpr hlt, rfl⟩
  · rw [sample_eq_zero_of_le (.inr hge)]
    decide

theorem mem_lines {line : Nat} : line ∈ s.lines ↔ line < s.lineCount := by
  simp only [lines]
  split <;> simp

theorem nodup_lines : s.lines.Nodup := by
  simp only [lines]
  split
  · exact List.nodup_reverse.mpr List.nodup_range
  · exact List.nodup_range

theorem mem_spans {p : Span} :
    p ∈ s.spans ↔ p.line < s.lineCount ∧ s.span? p.line = some p := by
  rw [spans, List.mem_filterMap]
  constructor
  · rintro ⟨line, hl, hp⟩
    obtain ⟨rfl, -⟩ := framed_of_span? hp
    exact ⟨mem_lines.mp hl, hp⟩
  · rintro ⟨hl, hp⟩
    exact ⟨p.line, mem_lines.mpr hl, hp⟩

theorem framed_of_mem_spans {p : Span} (h : p ∈ s.spans) : s.Framed p :=
  (framed_of_span? (mem_spans.mp h).2).2

/-- The lines of the spans stand in the order in which lines are taken. -/
theorem pairwise_spans {R : Nat → Nat → Prop} (h : s.lines.Pairwise R) :
    s.spans.Pairwise fun p q => R p.line q.line := by
  refine h.filterMap _ fun line line' hr p hp q hq => ?_
  rwa [(framed_of_span? hp).1, (framed_of_span? hq).1]

/-- The two scans take the same lines in the same ways and find the same intensities on them. -/
structure Agrees (s t : Scan) : Prop where
  lines : t.lines = s.lines
  values : ∀ line, t.values line = s.values line
  startsForward : t.startsForward = s.startsForward
  turned : ∀ forward, t.turned forward = s.turned forward
  overscan : t.overscan = s.overscan

namespace Agrees

variable {t : Scan}

theorem spans (h : s.Agrees t) : t.spans = s.spans := by
  rw [Scan.spans, Scan.spans, h.lines]
  exact List.filterMap_congr fun line _ => by rw [span?, span?, h.values]

theorem strokesOver (h : s.Agrees t) (started forward : Bool) (ps : List Span) :
    t.strokesOver started forward ps = s.strokesOver started forward ps := by
  induction ps generalizing started forward with
  | nil => rfl
  | cons p ps ih => rw [Scan.strokesOver, Scan.strokesOver, ih, h.turned, h.overscan]

theorem strokes (h : s.Agrees t) : t.strokes = s.strokes := by
  rw [Scan.strokes, Scan.strokes, h.spans, h.startsForward, h.strokesOver]

end Agrees

end Scan
end Engraver
