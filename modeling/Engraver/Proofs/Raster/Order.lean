import Mathlib.Data.List.Destutter
import Engraver.Proofs.Raster.Coverage

/-! # The order of a scan

The head comes once to each line that has something to burn, in the announced order. Along the line
after `k` others it travels one way only: the announced one, or the other if the scan runs both ways
and `k` is odd.
-/

namespace Engraver

namespace ScanDirection

/-- Lines are taken from the last to the first. -/
def linesFall (d : ScanDirection) : Bool :=
  if d.xMajor then d.top else d.left

/-- The first sweep goes toward the start of its line. -/
def sweepFalls (d : ScanDirection) : Bool :=
  if d.xMajor then d.left else d.top

end ScanDirection

namespace Run

theorem Cuts.length_pos {rs : List Run} {vs : List Float} (h : Cuts rs vs) :
    ∀ r ∈ rs, 0 < r.length := by
  induction h with
  | nil => exact fun r hr => nomatch hr
  | cons block length same tail ih =>
    exact List.forall_mem_cons.mpr ⟨by omega, ih⟩

end Run

namespace Leg

variable {line : Nat} {q : Place} {stops : List (Place × Float)}

theorem map_target_path {π : Type} (q : π) (stops : List (π × Float)) :
    (path q stops).map target = stops.map Prod.fst := by
  induction stops generalizing q with
  | nil => rfl
  | cons t stops ih => rw [path, List.map_cons, ih, List.map_cons]

theorem line_of_mem_path (hq : q.line = line) (h : ∀ t ∈ stops, t.1.line = line) :
    (finish q stops).line = line ∧
      ∀ l ∈ path q stops, l.source.line = line ∧ l.target.line = line := by
  induction stops generalizing q with
  | nil => exact ⟨hq, fun l hl => nomatch hl⟩
  | cons t stops ih =>
    obtain ⟨ht, hstops⟩ := List.forall_mem_cons.mp h
    obtain ⟨hfinish, hpath⟩ := ih ht hstops
    exact ⟨hfinish, List.forall_mem_cons.mpr ⟨⟨hq, ht⟩, hpath⟩⟩

end Leg

namespace Span

open Leg

theorem line_of_mem_strokesFrom {line : Nat} {forward : Bool} {edge : Nat} {rs : List Run} :
    ∀ k ∈ strokesFrom line forward edge rs, k.line = line := by
  induction rs generalizing edge with
  | nil => exact fun k hk => nomatch hk
  | cons r rs ih => exact List.forall_mem_cons.mpr ⟨rfl, ih⟩

theorem finish_strokesFrom (line : Nat) (forward : Bool) (edge : Nat) (rs : List Run) :
    finish ⟨line, edge, 0⟩ ((strokesFrom line forward edge rs).map Stroke.stop) =
      ⟨line, if forward then edge + Run.total rs else edge - Run.total rs, 0⟩ := by
  induction rs generalizing edge with
  | nil => cases forward <;> rfl
  | cons r rs ih =>
    refine (ih _).trans ?_
    cases forward <;> simp [Nat.add_assoc, Nat.sub_sub]

theorem finish_sweep (p : Span) (forward : Bool) :
    finish (p.startPlace forward) ((p.sweep forward).map Stroke.stop) =
      ⟨p.line, p.stop forward, 0⟩ := by
  refine (finish_strokesFrom ..).trans ?_
  rw [Run.total_ofValues]
  cases forward <;> simp [start, stop, last]

theorem line_of_mem_sweep {p : Span} {forward : Bool} : ∀ k ∈ p.sweep forward, k.line = p.line :=
  line_of_mem_strokesFrom

theorem line_of_mem_runOut {p : Span} {overscan : Nat} {forward : Bool} :
    ∀ k ∈ p.runOut overscan forward, k.line = p.line := by
  unfold runOut
  split <;> simp

end Span

namespace Scan

open Leg Engraver.Span

variable {s : Scan}

/-- How far a place is along its line, in scene units. -/
def along (s : Scan) (p : Place) : Int :=
  p.edge * s.step + p.past

/-- The leg goes toward the end of its line, or toward the start. -/
def Goes (s : Scan) (forward : Bool) (l : Leg Place) : Prop :=
  if forward then s.along l.source < s.along l.target else s.along l.target < s.along l.source

theorem along_lt_along {line a b : Nat} (h : a < b) :
    s.along ⟨line, a, 0⟩ < s.along ⟨line, b, 0⟩ := by
  have hstep : (0 : Int) < s.step := Int.natCast_pos.mpr s.step_pos
  have hab : (a : Int) < b := Int.ofNat_lt.mpr h
  simpa [along] using Int.mul_lt_mul_of_pos_right hab hstep

theorem goes_strokesFrom (line : Nat) (forward : Bool) {rs : List Run}
    (hrs : ∀ r ∈ rs, 0 < r.length) (edge : Nat) (hle : forward = false → Run.total rs ≤ edge) :
    ∀ l ∈ path ⟨line, edge, 0⟩ ((strokesFrom line forward edge rs).map Stroke.stop),
      s.Goes forward l := by
  induction rs generalizing edge with
  | nil => exact fun l hl => nomatch hl
  | cons r rs ih =>
    obtain ⟨hr, hrs⟩ := List.forall_mem_cons.mp hrs
    rw [Run.total_cons] at hle
    cases forward with
    | true =>
      exact List.forall_mem_cons.mpr ⟨along_lt_along (Nat.lt_add_of_pos_right hr),
        ih hrs _ fun h => nomatch h⟩
    | false =>
      have hle := hle rfl
      have hfall : edge - r.length < edge := by omega
      have hrest : Run.total rs ≤ edge - r.length := by omega
      exact List.forall_mem_cons.mpr ⟨along_lt_along hfall, ih hrs _ fun _ => hrest⟩

def visit (s : Scan) (p : Span) (forward : Bool) : List Stroke :=
  p.sweep forward ++ p.runOut s.overscan forward

theorem goes_runOut (s : Scan) (p : Span) (forward : Bool) :
    ∀ l ∈ path ⟨p.line, p.stop forward, 0⟩ ((p.runOut s.overscan forward).map Stroke.stop),
      s.Goes forward l := by
  unfold runOut
  split
  · exact fun l hl => nomatch hl
  · intro l hl
    obtain rfl := List.mem_singleton.mp hl
    cases forward <;> simp [Goes, along] <;> omega

theorem goes_visit (s : Scan) (p : Span) (forward : Bool) :
    ∀ l ∈ path (p.startPlace forward) ((s.visit p forward).map Stroke.stop), s.Goes forward l := by
  intro l hl
  rw [visit, List.map_append, path_append, finish_sweep, List.mem_append] at hl
  rcases hl with hl | hl
  · refine goes_strokesFrom p.line forward (Run.cuts_ofValues _).length_pos _ ?_ l hl
    rintro rfl
    rw [Run.total_ofValues]
    simp [start, last]
  · exact s.goes_runOut p forward l hl

theorem line_of_mem_visit {p : Span} {forward : Bool} : ∀ k ∈ s.visit p forward, k.line = p.line :=
  List.forall_mem_append.mpr ⟨line_of_mem_sweep, line_of_mem_runOut⟩

theorem strokesOver_cons (s : Scan) (started forward : Bool) (p : Span) (ps : List Span) :
    s.strokesOver started forward (p :: ps) =
      (if started then [p.travel forward] else []) ++
        (s.visit p forward ++ s.strokesOver true (s.turned forward) ps) := by
  simp only [strokesOver, visit, List.append_assoc]

/-- A leg along one line belongs to the visit of a span, and goes its way. -/
theorem exists_directed_of_line_eq (started forward : Bool) {ps : List Span}
    (hps : (ps.map Span.line).Nodup) (q : Place)
    (hq : if started then ∀ p ∈ ps, q.line ≠ p.line else ∀ p ∈ ps.head?, q = p.startPlace forward)
    {l : Leg Place} (hl : l ∈ path q ((s.strokesOver started forward ps).map Stroke.stop))
    (hline : l.source.line = l.target.line) :
    ∃ d ∈ s.directed forward ps, l.source.line = d.1.line ∧ s.Goes d.2 l := by
  induction ps generalizing started forward q with
  | nil => cases hl
  | cons p ps ih =>
    rw [List.map_cons, List.nodup_cons] at hps
    rw [strokesOver_cons, List.map_append, path_append, List.mem_append] at hl
    have hstart : finish q ((if started then [p.travel forward] else []).map Stroke.stop) =
        p.startPlace forward := by
      cases started
      · exact hq p rfl
      · rfl
    rw [hstart, List.map_append, path_append, List.mem_append] at hl
    have hstops : ∀ t ∈ (s.visit p forward).map Stroke.stop, t.1.line = p.line :=
      List.forall_mem_map.mpr line_of_mem_visit
    have hplace : (p.startPlace forward).line = p.line := rfl
    obtain ⟨hfinish, hvisit⟩ := line_of_mem_path hplace hstops
    rcases hl with hl | hl | hl
    · cases started with
      | false => cases hl
      | true =>
        obtain rfl := List.mem_singleton.mp hl
        exact absurd hline (hq p List.mem_cons_self)
    · exact ⟨(p, forward), List.mem_cons_self, (hvisit l hl).1, s.goes_visit p forward l hl⟩
    · have hne : ∀ p' ∈ ps, (finish (p.startPlace forward)
          ((s.visit p forward).map Stroke.stop)).line ≠ p'.line := by
        intro p' hp' he
        rw [hfinish] at he
        exact hps.1 (he ▸ List.mem_map_of_mem hp')
      obtain ⟨d, hd, h⟩ := ih true _ hps.2 _ hne hl
      exact ⟨d, List.mem_cons_of_mem _ hd, h⟩

/-- The way of the sweep after `k` others. -/
def wayAfter (s : Scan) (forward : Bool) (k : Nat) : Bool :=
  if s.traversal.isUnidirectional ∨ k % 2 = 0 then forward else !forward

theorem wayAfter_turned (s : Scan) (forward : Bool) (k : Nat) :
    s.wayAfter (s.turned forward) k = s.wayAfter forward (k + 1) := by
  unfold wayAfter turned
  by_cases hu : s.traversal.isUnidirectional
  · simp [hu]
  · rcases Nat.mod_two_eq_zero_or_one k with hk | hk <;> simp [hu, hk, Nat.add_mod]

theorem exists_getElem?_of_mem_directed {forward : Bool} {ps : List Span} {d : Span × Bool}
    (h : d ∈ s.directed forward ps) : ∃ k, ps[k]? = some d.1 ∧ d.2 = s.wayAfter forward k := by
  induction ps generalizing forward with
  | nil => cases h
  | cons p ps ih =>
    rcases List.mem_cons.mp h with rfl | h
    · exact ⟨0, rfl, by simp [wayAfter]⟩
    · obtain ⟨k, hk, hd⟩ := ih h
      exact ⟨k + 1, by rwa [List.getElem?_cons_succ], hd.trans (s.wayAfter_turned forward k)⟩

/-- The lines to which the head comes, one after another. -/
def visited (s : Scan) : List Nat :=
  (s.legs.map fun l => l.target.line).destutter (· ≠ ·)

theorem destutter'_append_of_forall_eq {line : Nat} {as : List Nat} (h : ∀ a ∈ as, a = line)
    (bs : List Nat) : (as ++ bs).destutter' (· ≠ ·) line = bs.destutter' (· ≠ ·) line := by
  induction as with
  | nil => rfl
  | cons a as ih =>
    obtain ⟨rfl, has⟩ := List.forall_mem_cons.mp h
    rw [List.cons_append, List.destutter'_cons_neg _ (not_not.mpr rfl), ih has]

theorem exists_map_line_strokesOver (started forward : Bool) {p : Span} (hp : s.Framed p)
    (ps : List Span) :
    ∃ lines : List Nat, (∀ line ∈ lines, line = p.line) ∧
      (s.strokesOver started forward (p :: ps)).map Stroke.line =
        p.line :: lines ++ (s.strokesOver true (s.turned forward) ps).map Stroke.line := by
  let strokes := (if started then [p.travel forward] else []) ++ s.visit p forward
  have hline : ∀ k ∈ strokes, k.line = p.line := by
    refine List.forall_mem_append.mpr ⟨?_, line_of_mem_visit⟩
    cases started <;> simp [travel]
  have hne : strokes ≠ [] := by
    obtain ⟨k, ks, hk, -⟩ := hp.sweep_eq_cons forward
    simp [strokes, visit, hk]
  obtain ⟨k, ks, hk⟩ := List.exists_cons_of_ne_nil hne
  rw [hk] at hline
  obtain ⟨hline, hlines⟩ := List.forall_mem_cons.mp hline
  refine ⟨ks.map Stroke.line, List.forall_mem_map.mpr hlines, ?_⟩
  rw [strokesOver_cons, ← List.append_assoc]
  change (strokes ++ _).map Stroke.line = _
  rw [hk, List.map_append, List.map_cons, hline]

theorem destutter'_strokesOver (started forward : Bool) {ps : List Span}
    (hf : ∀ p ∈ ps, s.Framed p) {line : Nat} (hc : (line :: ps.map Span.line).Nodup) :
    ((s.strokesOver started forward ps).map Stroke.line).destutter' (· ≠ ·) line =
      line :: ps.map Span.line := by
  induction ps generalizing started forward line with
  | nil => rfl
  | cons p ps ih =>
    obtain ⟨hp, hf⟩ := List.forall_mem_cons.mp hf
    obtain ⟨hline, hps⟩ := List.nodup_cons.mp hc
    obtain ⟨lines, hlines, hmap⟩ := exists_map_line_strokesOver started forward hp ps
    have hne : line ≠ p.line := fun h => hline (h ▸ List.mem_cons_self)
    rw [hmap, List.cons_append, List.destutter'_cons_pos _ hne,
      destutter'_append_of_forall_eq hlines, ih true _ hf hps, List.map_cons]

theorem map_line_legs (s : Scan) :
    (s.legs.map fun l => l.target.line) = s.strokes.map Stroke.line := by
  unfold legs
  cases hs : s.spans with
  | nil => simp [strokes, hs, strokesOver]
  | cons p ps =>
    have h := congrArg (List.map Place.line)
      (map_target_path (p.startPlace s.startsForward) (s.strokes.map Stroke.stop))
    rw [List.map_map, List.map_map, List.map_map] at h
    exact h

theorem nodup_spans : (s.spans.map Span.line).Nodup :=
  List.pairwise_map.mpr (pairwise_spans nodup_lines)

theorem visited_eq (s : Scan) : s.visited = s.spans.map Span.line := by
  have hf : ∀ p ∈ s.spans, s.Framed p := fun p hp => framed_of_mem_spans hp
  have hn := nodup_spans (s := s)
  rw [visited, map_line_legs, strokes]
  cases hs : s.spans with
  | nil => rfl
  | cons p ps =>
    rw [hs] at hf hn
    obtain ⟨hp, hf⟩ := List.forall_mem_cons.mp hf
    obtain ⟨lines, hlines, hmap⟩ := exists_map_line_strokesOver false s.startsForward hp ps
    rw [hmap, List.cons_append, List.destutter_cons', destutter'_append_of_forall_eq hlines,
      destutter'_strokesOver _ _ hf hn, List.map_cons]

theorem mem_visited {line : Nat} : line ∈ s.visited ↔ ∃ pos, 0.0 < s.sample line pos := by
  rw [visited_eq, List.mem_map]
  constructor
  · rintro ⟨p, hp, rfl⟩
    exact ⟨p.first, (framed_of_mem_spans hp).burns_first⟩
  · rintro ⟨pos, h⟩
    exact exists_mem_spans h

theorem linesFall_initialDirection (s : Scan) :
    s.initialDirection.linesFall = s.traversal.linesReversed := by
  cases h : s.traversal.isYMajor <;>
    simp [initialDirection, Traversal.direction, ScanDirection.linesFall,
      Traversal.linesReversed, h]

theorem sweepFalls_initialDirection (s : Scan) :
    s.initialDirection.sweepFalls = s.traversal.startsReversed := by
  cases h : s.traversal.isYMajor <;>
    simp [initialDirection, Traversal.direction, ScanDirection.sweepFalls,
      Traversal.startsReversed, h]

theorem pairwise_lines (s : Scan) :
    s.lines.Pairwise fun a b => if s.initialDirection.linesFall then b < a else a < b := by
  rw [linesFall_initialDirection, lines]
  cases s.traversal.linesReversed with
  | true => exact List.pairwise_reverse.mpr List.pairwise_lt_range
  | false => exact List.pairwise_lt_range

theorem exists_burning_leg {line pos : Nat} (h : 0.0 < s.sample line pos) :
    ∃ l ∈ s.legs, l.isBurning ∧ l.source.line = line ∧ l.target.line = line := by
  have hcount := s.countP_passes_legs line pos
  rw [if_pos h] at hcount
  obtain ⟨l, hl, hpasses⟩ := List.countP_pos_iff.mp (hcount ▸ Nat.one_pos)
  obtain ⟨hl, hb⟩ := List.mem_filter.mp hl
  simp only [Leg.passes, Bool.and_eq_true, decide_eq_true_eq] at hpasses
  exact ⟨l, hl, hb, hpasses.1.1⟩

/-- A leg along the line after `k` others goes the way of the sweep after `k` others. -/
theorem goes_of_getElem?_visited {k line : Nat} (hk : s.visited[k]? = some line) {l : Leg Place}
    (hl : l ∈ s.legs) (hs : l.source.line = line) (ht : l.target.line = line) :
    s.Goes (s.wayAfter s.startsForward k) l := by
  obtain ⟨d, hd, hline, hgoes⟩ : ∃ d ∈ s.directed s.startsForward s.spans,
      l.source.line = d.1.line ∧ s.Goes d.2 l := by
    have hn := nodup_spans (s := s)
    unfold legs strokes at hl
    cases hspans : s.spans with
    | nil => rw [hspans] at hl; cases hl
    | cons p ps =>
      rw [hspans] at hl hn
      refine exists_directed_of_line_eq false s.startsForward hn _ ?_ hl (hs.trans ht.symm)
      intro q hq
      cases hq
      rfl
  obtain ⟨k', hk', hway⟩ := exists_getElem?_of_mem_directed hd
  have hvisited : s.visited[k']? = s.visited[k]? := by
    rw [hk, visited_eq, List.getElem?_map, hk', Option.map_some, ← hline, hs]
  rw [visited_eq] at hvisited
  have hlt : k' < (s.spans.map Span.line).length := by
    rw [List.length_map]
    exact (List.getElem?_eq_some_iff.mp hk').1
  obtain rfl := (List.getElem?_inj hlt nodup_spans).mp hvisited
  rwa [hway] at hgoes

/-- The head comes once to each line of the image that has something to burn, from the last to the
first if the announced direction says so and else from the first to the last. Along the line that it
comes to after `k` others it burns and keeps to one way, toward the start if the announced direction
says so and else toward the end, but the other one if the scan runs both ways and `k` is odd. -/
theorem visited_as_announced (s : Scan) :
    (s.travels = s.legs.map (map s.scenePoint) ∧ ∀ p, s.InScene p (s.scenePoint p)) ∧
    (∀ line, line ∈ s.visited ↔
      ∃ x y, 0.0 < s.image.intensity x y ∧ line = if s.traversal.isYMajor then x else y) ∧
    (s.visited.Pairwise fun a b => if s.initialDirection.linesFall then b < a else a < b) ∧
    ∀ k line, s.visited[k]? = some line →
      (∃ l ∈ s.legs, l.isBurning ∧ l.source.line = line ∧ l.target.line = line) ∧
      ∀ l ∈ s.legs, l.source.line = line → l.target.line = line →
        s.Goes (s.wayAfter (!s.initialDirection.sweepFalls) k) l := by
  refine ⟨⟨travels_eq s, s.inScene_scenePoint⟩, fun line => ?_, ?_,
    fun k line hk => ⟨?_, fun l hl hs ht => ?_⟩⟩
  · rw [mem_visited]
    unfold sample
    cases s.traversal.isYMajor <;> simp [and_comm]
  · rw [visited_eq]
    exact List.pairwise_map.mpr (pairwise_spans s.pairwise_lines)
  · obtain ⟨pos, hpos⟩ := mem_visited.mp (List.mem_of_getElem? hk)
    exact exists_burning_leg hpos
  · rw [sweepFalls_initialDirection]
    exact goes_of_getElem?_visited hk hl hs ht

end Scan
end Engraver
