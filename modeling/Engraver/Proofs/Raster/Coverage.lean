import Engraver.Proofs.Raster.Sweeps

/-! # A scan burns the image

The head starts at the initial position and follows the segments of a scan. Read in lines and
pixel edges, a leg that burns runs along one line, and the burning legs pass each pixel of the
image that burns once, at its intensity, and no other place.
-/

namespace Engraver

namespace Scan

open Leg

variable {s : Scan}

def scenePoint (s : Scan) (p : Place) : Float × Float :=
  s.point p.line p.edge p.past

/-- How far along its line a place is in the scene: pixels are `step` units long, and what is past
an edge is counted in units. -/
def distance (s : Scan) (p : Place) : Float :=
  let units := Float.ofNat p.edge * Float.ofNat s.step
  if p.past = 0 then units else units + Float.ofInt p.past

/-- The scene point stands for the place. Lines are rows, `step` units apart, or columns if the scan
is Y-major, and the offset is added. -/
structure InScene (s : Scan) (p : Place) (q : Float × Float) : Prop where
  rows : s.traversal.isYMajor = false →
    q = (s.distance p + s.offset.1, Float.ofNat p.line * Float.ofNat s.step + s.offset.2)
  columns : s.traversal.isYMajor = true →
    q = (Float.ofNat p.line * Float.ofNat s.step + s.offset.1, s.distance p + s.offset.2)

theorem major_eq_distance (s : Scan) (p : Place) : s.major p.edge p.past = s.distance p := by
  unfold distance
  split
  case isTrue h => rw [h, major_zero]
  case isFalse h => rw [s.major_of_ne_zero p.edge h]

theorem inScene_scenePoint (s : Scan) (p : Place) : s.InScene p (s.scenePoint p) where
  rows := fun h => by rw [scenePoint, point_of_rows h, major_eq_distance]
  columns := fun h => by rw [scenePoint, point_of_columns h, major_eq_distance]

theorem inScene_place (s : Scan) (k : Stroke) :
    s.InScene k.stop.1 ((s.place k).x, (s.place k).y) := by
  rw [place_xy]
  exact s.inScene_scenePoint k.stop.1

def travels (s : Scan) : List (Leg (Float × Float)) :=
  path s.initialPosition (s.segments.map fun g => ((g.x, g.y), g.power))

/-- The travels of the head in lines and pixel edges, from the start of the first span. -/
def legs (s : Scan) : List (Leg Place) :=
  match s.spans with
  | [] => []
  | p :: _ => path (p.startPlace s.startsForward) (s.strokes.map Stroke.stop)

def passes (s : Scan) (l : Leg Place) (x y : Nat) : Bool :=
  if s.traversal.isYMajor then l.passes x y else l.passes y x

theorem travels_eq (s : Scan) : s.travels = s.legs.map (map s.scenePoint) := by
  have hmap : s.segments.map (fun g => ((g.x, g.y), g.power)) =
      (s.strokes.map Stroke.stop).map fun t => (s.scenePoint t.1, t.2) := by
    simp [segments, Stroke.stop, scenePoint, Function.comp_def]
  rw [travels, legs, hmap, initialPosition]
  cases hs : s.spans with
  | nil => simp [strokes, hs, strokesOver, path]
  | cons p ps => exact path_map s.scenePoint (p.startPlace s.startsForward) _

theorem filter_isBurning_path_eq_nil {π : Type} (q : π) {stops : List (π × Float)}
    (h : ∀ t ∈ stops, t.2 = 0.0) : (path q stops).filter isBurning = [] := by
  induction stops generalizing q with
  | nil => rfl
  | cons t stops ih =>
    obtain ⟨ht, hr⟩ := List.forall_mem_cons.mp h
    have hb : ¬ isBurning (⟨q, t.1, t.2⟩ : Leg π) := by
      simp only [isBurning, ht]; decide
    rw [path, List.filter_cons_of_neg hb, ih t.1 hr]

theorem turned_not (s : Scan) (forward : Bool) : s.turned (!forward) = !s.turned forward := by
  unfold turned
  split <;> rfl

def directed (s : Scan) : Bool → List Span → List (Span × Bool)
  | _, [] => []
  | forward, p :: ps => (p, forward) :: s.directed (s.turned forward) ps

/-- Only sweeps burn; the head reaches the start of each by a travel or is there already. -/
theorem filter_isBurning_strokesOver (started forward : Bool) (ps : List Span) (q : Place)
    (hq : started = false → ∀ p ∈ ps.head?, q = p.startPlace forward) :
    (path q ((s.strokesOver started forward ps).map Stroke.stop)).filter isBurning =
      (s.directed forward ps).flatMap fun d => (d.1.legs d.2).filter isBurning := by
  induction ps generalizing started forward q with
  | nil => rfl
  | cons p ps ih =>
    let approach := (if started then [p.travel forward] else []).map Stroke.stop
    have happroach : (path q approach).filter isBurning = [] := by
      refine filter_isBurning_path_eq_nil q fun t ht => ?_
      cases started
      · exact absurd ht List.not_mem_nil
      · rw [List.mem_singleton.mp ht]; rfl
    have hstart : finish q approach = p.startPlace forward := by
      cases started
      · exact hq rfl p rfl
      · rfl
    have hrunOut : ∀ q', (path q' ((p.runOut s.overscan forward).map Stroke.stop)).filter
        isBurning = [] := by
      refine fun q' => filter_isBurning_path_eq_nil q' fun t ht => ?_
      unfold Span.runOut at ht
      split at ht
      · cases ht
      · rw [List.mem_singleton.mp ht]; rfl
    rw [strokesOver, List.map_append, List.map_append, List.map_append, path_append, path_append,
      path_append, List.filter_append, List.filter_append, List.filter_append, happroach, hrunOut,
      ih true _ _ (by simp), directed, List.flatMap_cons, List.nil_append, List.append_nil]
    rw [hstart]; rfl

/-- The burning legs of a sweep pass the burning pixels of their line once. -/
theorem Framed.countP_burning {p : Span} (h : s.Framed p) (forward : Bool) (line pos : Nat) :
    ((p.legs forward).filter isBurning).countP (·.passes line pos) =
      if p.line = line ∧ 0.0 < s.sample line pos then 1 else 0 := by
  have ht := h.tiles forward
  by_cases hin : line = p.line ∧ p.first ≤ pos ∧ pos < p.last
  · obtain ⟨rfl, hlo, hhi⟩ := hin
    rw [ht.countP_burning hlo hhi]
    simp only [true_and]
  · have hz : ((p.legs forward).filter isBurning).countP (·.passes line pos) ≤
        (p.legs forward).countP (·.passes line pos) := List.filter_sublist.countP_le
    rw [ht.countP_eq_zero (by omega), Nat.le_zero] at hz
    rw [hz, if_neg]
    rintro ⟨rfl, hs⟩
    exact hin ⟨rfl, h.burns_inside pos hs⟩

theorem countP_directed (forward : Bool) {ps : List Span} (hf : ∀ p ∈ ps, s.Framed p)
    (hne : ps.Pairwise fun p q => p.line ≠ q.line) (line pos : Nat) :
    ((s.directed forward ps).flatMap fun d => (d.1.legs d.2).filter isBurning).countP
        (·.passes line pos) =
      if (∃ p ∈ ps, p.line = line) ∧ 0.0 < s.sample line pos then 1 else 0 := by
  induction ps generalizing forward with
  | nil => simp [directed]
  | cons p ps ih =>
    obtain ⟨hp, hf⟩ := List.forall_mem_cons.mp hf
    obtain ⟨hpne, hne⟩ := List.pairwise_cons.mp hne
    rw [directed, List.flatMap_cons, List.countP_append, hp.countP_burning, ih _ hf hne]
    by_cases hl : p.line = line
    · have hno : ¬ ∃ q ∈ ps, q.line = line := by
        rintro ⟨q, hq, rfl⟩; exact hpne q hq hl
      simp [hl, hno]
    · simp [hl]

theorem filter_isBurning_legs (s : Scan) :
    s.legs.filter isBurning =
      (s.directed s.startsForward s.spans).flatMap fun d => (d.1.legs d.2).filter isBurning := by
  unfold legs strokes
  cases hs : s.spans with
  | nil => rfl
  | cons p ps =>
    refine filter_isBurning_strokesOver false s.startsForward (p :: ps) _ fun _ q hq => ?_
    cases hq; rfl

theorem exists_mem_spans {line pos : Nat} (h : 0.0 < s.sample line pos) :
    ∃ p ∈ s.spans, p.line = line := by
  have hl : line < s.lineCount := by
    by_contra hc
    rw [sample_eq_zero_of_le (.inl (by omega))] at h
    exact absurd h (by decide)
  cases hp : s.span? line with
  | none => exact absurd h (not_burning_of_span?_eq_none hp pos)
  | some p =>
    obtain ⟨rfl, -⟩ := framed_of_span? hp
    exact ⟨p, mem_spans.mpr ⟨hl, hp⟩, rfl⟩

theorem countP_passes_legs (s : Scan) (line pos : Nat) :
    (s.legs.filter isBurning).countP (·.passes line pos) =
      if 0.0 < s.sample line pos then 1 else 0 := by
  rw [filter_isBurning_legs, countP_directed _ (fun p hp => framed_of_mem_spans hp)
    (pairwise_spans nodup_lines)]
  by_cases hb : 0.0 < s.sample line pos
  · rw [if_pos ⟨exists_mem_spans hb, hb⟩, if_pos hb]
  · rw [if_neg fun h => hb h.2, if_neg hb]

theorem fst_mem_of_mem_directed {forward : Bool} {ps : List Span} {d : Span × Bool}
    (h : d ∈ s.directed forward ps) : d.1 ∈ ps := by
  induction ps generalizing forward with
  | nil => cases h
  | cons p ps ih =>
    rcases List.mem_cons.mp h with rfl | h
    · exact List.mem_cons_self
    · exact List.mem_cons_of_mem _ (ih h)

theorem exists_span_of_isBurning {l : Leg Place} (hl : l ∈ s.legs) (hb : l.isBurning) :
    ∃ p ∈ s.spans, ∃ forward, l ∈ p.legs forward := by
  have hm : l ∈ s.legs.filter isBurning := List.mem_filter.mpr ⟨hl, hb⟩
  rw [filter_isBurning_legs, List.mem_flatMap] at hm
  obtain ⟨d, hd, hm⟩ := hm
  exact ⟨d.1, fst_mem_of_mem_directed hd, d.2, (List.mem_filter.mp hm).1⟩

/-- A sweep starts at full burn: its first stroke has the power of a burning pixel. -/
theorem Framed.sweep_eq_cons {p : Span} (h : s.Framed p) (forward : Bool) :
    ∃ k ks, p.sweep forward = k :: ks ∧ 0.0 < k.power := by
  have hv : ∃ v vs, (if forward then p.values else p.values.reverse) = v :: vs ∧ 0.0 < v := by
    cases forward with
    | true => exact ⟨_, _, (List.cons_head_tail h.nonempty).symm, h.head_burns⟩
    | false =>
      have hn : p.values.reverse ≠ [] := List.reverse_ne_nil_iff.mpr h.nonempty
      refine ⟨_, _, (List.cons_head_tail hn).symm, ?_⟩
      rw [List.head_reverse]
      exact h.last_burns
  obtain ⟨v, vs, he, hb⟩ := hv
  have hc := Run.cuts_ofValues (v :: vs)
  unfold Span.sweep
  rw [he]
  generalize Run.ofValues (v :: vs) = rs at hc ⊢
  cases hc with
  | cons block length same tail => exact ⟨_, _, rfl, hb⟩

theorem isBurning_of_head_legs {l : Leg Place} (h : l ∈ s.legs.head?) : l.isBurning := by
  unfold legs at h
  cases hs : s.spans with
  | nil => rw [hs] at h; cases h
  | cons p ps =>
    have hp : p ∈ s.spans := by rw [hs]; exact List.mem_cons_self
    obtain ⟨k, ks, hk, hb⟩ := (framed_of_mem_spans hp).sweep_eq_cons s.startsForward
    rw [hs, strokes, hs, strokesOver, hk] at h
    cases h
    exact decide_eq_true hb

theorem source_of_head_legs {l : Leg Place} (h : l ∈ s.legs.head?) :
    s.scenePoint l.source = s.initialPosition := by
  have ht : l.map s.scenePoint ∈ s.travels.head? := by
    rw [travels_eq, List.head?_map]; exact Option.mem_map_of_mem _ h
  unfold travels at ht
  cases hs : s.segments with
  | nil => rw [hs] at ht; cases ht
  | cons g gs =>
    rw [hs] at ht
    exact (congrArg Leg.source (Option.some.inj ht)).symm

theorem ends_of_isBurning {l : Leg Place} (hl : l ∈ s.legs) (hb : l.isBurning) :
    ∃ line < s.lineCount, ∃ a ≤ s.lineLength, ∃ b ≤ s.lineLength,
      l.source = ⟨line, a, 0⟩ ∧ l.target = ⟨line, b, 0⟩ := by
  obtain ⟨p, hp, forward, hm⟩ := exists_span_of_isBurning hl hb
  obtain ⟨hline, hp⟩ := mem_spans.mp hp
  have hf := (framed_of_span? hp).2
  obtain ⟨hs, ht, hs', ht', hse, hte⟩ := (hf.tiles forward).along l hm
  refine ⟨p.line, hline, l.source.edge, hse.2.trans hf.inside, l.target.edge,
    hte.2.trans hf.inside, ?_, ?_⟩
  · rw [← hs, ← hs']
  · rw [← ht, ← ht']

theorem power_of_isBurning {l : Leg Place} (hl : l ∈ s.legs) (hb : l.isBurning) {line pos : Nat}
    (h : l.passes line pos) : l.power = s.sample line pos := by
  obtain ⟨p, hp, forward, hm⟩ := exists_span_of_isBurning hl hb
  have ht := (framed_of_mem_spans hp).tiles forward
  have hline : line = p.line := by
    by_contra hc
    rw [(ht.along l hm).not_passes (.inl hc)] at h
    exact Bool.false_ne_true h
  subst hline
  exact ht.power l hm pos h (.inl (of_decide_eq_true hb))

/-- The head starts at the initial position and follows the segments, from the scene points of
places to those of others. In lines and pixel edges, the first leg burns, every burning leg joins
two edges of one line of the image, and the burning legs pass a pixel once if its intensity is
positive, at that intensity, and never if not. -/
theorem burning_legs_cover_image (s : Scan) :
    (s.travels = s.legs.map (map s.scenePoint) ∧ ∀ p, s.InScene p (s.scenePoint p)) ∧
    (∀ l ∈ s.legs.head?, l.isBurning ∧ s.scenePoint l.source = s.initialPosition) ∧
    (∀ l ∈ s.legs, l.isBurning → ∃ line < s.lineCount, ∃ a ≤ s.lineLength, ∃ b ≤ s.lineLength,
      l.source = ⟨line, a, 0⟩ ∧ l.target = ⟨line, b, 0⟩) ∧
    ∀ x y, (s.legs.countP fun l => l.isBurning && s.passes l x y) =
        (if 0.0 < s.image.intensity x y then 1 else 0) ∧
      ∀ l ∈ s.legs, l.isBurning → s.passes l x y → l.power = s.image.intensity x y := by
  refine ⟨⟨travels_eq s, s.inScene_scenePoint⟩,
    fun l hl => ⟨isBurning_of_head_legs hl, source_of_head_legs hl⟩,
    fun l => ends_of_isBurning, fun x y => ?_⟩
  have hcount : ∀ line pos, (s.legs.countP fun l => l.isBurning && l.passes line pos) =
      if 0.0 < s.sample line pos then 1 else 0 := by
    intro line pos
    rw [← countP_passes_legs, List.countP_filter]
    exact List.countP_congr fun l _ => by rw [Bool.and_comm]
  by_cases hy : s.traversal.isYMajor
  · have hi : s.image.intensity x y = s.sample x y := (if_pos hy).symm
    simp only [passes, if_pos hy, hi]
    exact ⟨hcount x y, fun l hl hb => power_of_isBurning hl hb⟩
  · have hi : s.image.intensity x y = s.sample y x := (if_neg hy).symm
    simp only [passes, if_neg hy, hi]
    exact ⟨hcount y x, fun l hl hb => power_of_isBurning hl hb⟩

end Scan
end Engraver
