import Mathlib.Data.List.Forall2
import Engraver.Proofs.Raster.Coverage
import Engraver.Proofs.Raster.Pixels

/-! # Scans of mirrored images

The image is mirrored along the scan lines, and the first sweep goes the other way. Then each sweep
does so too, and the scan is the mirrored one, stroke by stroke: an edge is as far from the end of
its line as the other is from the start.
-/

namespace Engraver

namespace Traversal

/-- The other side of the lines to start at: right for rows, bottom for columns. -/
def mirror (t : Traversal) : Traversal where
  bits := t.bits ^^^ (if t.isYMajor then bottom else right).bits

theorem flags_mirror (t : Traversal) :
    t.mirror.isYMajor = t.isYMajor ∧ t.mirror.isUnidirectional = t.isUnidirectional ∧
      t.mirror.linesReversed = t.linesReversed ∧ t.mirror.startsReversed = !t.startsReversed := by
  have h : ∀ n : Fin 256, let t : Traversal := ⟨.ofFin n⟩
      t.mirror.isYMajor = t.isYMajor ∧ t.mirror.isUnidirectional = t.isUnidirectional ∧
        t.mirror.linesReversed = t.linesReversed ∧
        t.mirror.startsReversed = !t.startsReversed := by
    decide +kernel
  exact h t.bits.toFin

@[simp] theorem isYMajor_mirror (t : Traversal) : t.mirror.isYMajor = t.isYMajor :=
  t.flags_mirror.1

@[simp] theorem isUnidirectional_mirror (t : Traversal) :
    t.mirror.isUnidirectional = t.isUnidirectional :=
  t.flags_mirror.2.1

@[simp] theorem linesReversed_mirror (t : Traversal) :
    t.mirror.linesReversed = t.linesReversed :=
  t.flags_mirror.2.2.1

@[simp] theorem startsReversed_mirror (t : Traversal) :
    t.mirror.startsReversed = !t.startsReversed :=
  t.flags_mirror.2.2.2

end Traversal

namespace Image

def mirrorPlace (i : Image) (yMajor : Bool) (x y : Nat) : Nat × Nat :=
  if yMajor then (x, i.height.toNat - 1 - y) else (i.width.toNat - 1 - x, y)

/-- The second image is the first mirrored along the lines of a scan. -/
structure IsMirror (yMajor : Bool) (i j : Image) : Prop where
  width : j.width = i.width
  height : j.height = i.height
  mode : j.mode = i.mode
  colors : j.colors = i.colors
  pixel? : ∀ x y, x < i.width.toNat → y < i.height.toNat →
    j.pixel? x y = i.pixel? (i.mirrorPlace yMajor x y).1 (i.mirrorPlace yMajor x y).2

def mirror (i : Image) (yMajor : Bool) : Image where
  width := i.width
  height := i.height
  mode := i.mode
  data := Array.ofFn fun n : Fin i.data.size =>
    i.gatheredByte i.width.toNat (i.mirrorPlace yMajor) n
  colors := i.colors
  valid := valid_gathered i.valid.width_ne_zero i.valid.height_ne_zero rfl

theorem isMirror_mirror (i : Image) (yMajor : Bool) :
    i.IsMirror yMajor (i.mirror yMajor) := by
  refine ⟨rfl, rfl, rfl, rfl, fun x y hx hy => ?_⟩
  have hdata : ∀ n (h : n < (i.mirror yMajor).data.size), (i.mirror yMajor).data[n] =
      i.gatheredByte i.width.toNat (i.mirrorPlace yMajor) n :=
    fun n h => Array.getElem_ofFn h
  have hsource : (i.mirrorPlace yMajor x y).1 < i.width.toNat ∧
      (i.mirrorPlace yMajor x y).2 < i.height.toNat := by
    unfold mirrorPlace
    cases yMajor <;> simp <;> omega
  exact pixel?_of_gathered hdata rfl hx hy hsource

end Image

/-- The second place is as far from the end of the line as the first is from its start, and as far
past its edge in the other direction. -/
structure Place.Mirrors (length : Nat) (p q : Place) : Prop where
  line : q.line = p.line
  edge : p.edge + q.edge = length
  past : q.past = -p.past

structure Stroke.Mirrors (length : Nat) (k l : Stroke) : Prop where
  place : k.stop.1.Mirrors length l.stop.1
  power : l.power = k.power

namespace Span

/-- The second span has the pixels of the first from the end of the line. -/
structure Mirrors (length : Nat) (p q : Span) : Prop where
  line : q.line = p.line
  edges : p.last + q.first = length
  values : q.values = p.values.reverse

/-- A line turned over has its span turned over. -/
theorem rel_ofLine?_reverse (line : Nat) (vs : List Float) :
    Option.Rel (Mirrors vs.length) (ofLine? line vs) (ofLine? line vs.reverse) := by
  cases hp : ofLine? line vs with
  | none =>
    have hblank := not_burning_of_ofLine?_eq_none hp
    rw [ofLine?_eq_none line fun v hv => hblank v (List.mem_reverse.mp hv)]
    exact .none
  | some p =>
    obtain ⟨rfl, before, after, rfl, hfirst, hbefore, hafter, hn, hhead, hlast⟩ :=
      ofLine?_eq_some hp
    have hreverse : (before ++ (p.values ++ after)).reverse =
        after.reverse ++ (p.values.reverse ++ before.reverse) := by
      simp
    rw [hreverse, ofLine?_append p.line (fun v hv => hafter v (List.mem_reverse.mp hv))
      (fun v hv => hbefore v (List.mem_reverse.mp hv)) (List.reverse_ne_nil_iff.mpr hn)
      (by rwa [List.head_reverse]) (by rwa [List.getLast_reverse])]
    refine .some ⟨rfl, ?_, rfl⟩
    simp only [last, List.length_append, List.length_reverse]
    omega

variable {length : Nat} {p q : Span}

theorem Mirrors.start (h : p.Mirrors length q) (forward : Bool) :
    p.start forward + q.start (!forward) = length := by
  have hedges := h.edges
  cases forward <;> simp [Span.start, last, h.values] at hedges ⊢ <;> omega

theorem Mirrors.stop (h : p.Mirrors length q) (forward : Bool) :
    p.stop forward + q.stop (!forward) = length := by
  have hedges := h.edges
  cases forward <;> simp [Span.stop, last, h.values] at hedges ⊢ <;> omega

/-- Runs drawn in both directions are mirrored if there is room for them before the first edge. -/
theorem mirrors_strokesFrom (line : Nat) (forward : Bool) (rs : List Run) {edge edge' : Nat}
    (h : edge + edge' = length) (hroom : Run.total rs ≤ if forward then edge' else edge) :
    (strokesFrom line forward edge rs).Forall₂ (Stroke.Mirrors length)
      (strokesFrom line (!forward) edge' rs) := by
  induction rs generalizing edge edge' with
  | nil => exact .nil
  | cons r rs ih =>
    rw [Run.total_cons] at hroom
    cases forward with
    | true =>
      have hroom : r.length + Run.total rs ≤ edge' := hroom
      have hnext : edge + r.length + (edge' - r.length) = length := by omega
      have hrest : Run.total rs ≤ edge' - r.length := by omega
      exact .cons ⟨⟨rfl, hnext, rfl⟩, rfl⟩ (ih hnext hrest)
    | false =>
      have hroom : r.length + Run.total rs ≤ edge := hroom
      have hnext : edge - r.length + (edge' + r.length) = length := by omega
      have hrest : Run.total rs ≤ edge - r.length := by omega
      exact .cons ⟨⟨rfl, hnext, rfl⟩, rfl⟩ (ih hnext hrest)

theorem Mirrors.sweep (h : p.Mirrors length q) (forward : Bool) :
    (p.sweep forward).Forall₂ (Stroke.Mirrors length) (q.sweep (!forward)) := by
  have hvalues : (if !forward then q.values else q.values.reverse) =
      if forward then p.values else p.values.reverse := by
    cases forward <;> simp [h.values]
  unfold Span.sweep
  rw [hvalues, h.line]
  refine mirrors_strokesFrom p.line forward _ (h.start forward) ?_
  have hedges := h.edges
  rw [Run.total_ofValues]
  cases forward <;> simp [Span.start, last, h.values]

theorem Mirrors.runOut (h : p.Mirrors length q) (overscan : Nat) (forward : Bool) :
    (p.runOut overscan forward).Forall₂ (Stroke.Mirrors length) (q.runOut overscan (!forward)) := by
  unfold Span.runOut
  split
  · exact .nil
  · refine .cons ⟨⟨h.line, h.stop forward, ?_⟩, rfl⟩ .nil
    cases forward <;> simp [Stroke.stop]

theorem Mirrors.startPlace (h : p.Mirrors length q) (forward : Bool) :
    (p.startPlace forward).Mirrors length (q.startPlace (!forward)) :=
  ⟨h.line, h.start forward, rfl⟩

end Span

namespace Scan

/-- The scan of another image, with the first sweep the other way. -/
def mirrored (s : Scan) (image : Image) : Scan :=
  { s with image := image, traversal := s.traversal.mirror }

def initialPlace? (s : Scan) : Option Place :=
  s.spans.head?.map (·.startPlace s.startsForward)

theorem initialPosition_eq (s : Scan) :
    s.initialPosition = (s.initialPlace?.map s.scenePoint).getD s.offset := by
  unfold initialPosition initialPlace?
  cases s.spans <;> rfl

variable {s : Scan} {image : Image}

section

variable (h : s.image.IsMirror s.traversal.isYMajor image)
include h

theorem lineCount_mirrored : (s.mirrored image).lineCount = s.lineCount := by
  simp [lineCount, mirrored, width, height, h.width, h.height]

theorem lineLength_mirrored : (s.mirrored image).lineLength = s.lineLength := by
  simp [lineLength, mirrored, width, height, h.width, h.height]

theorem sample_mirrored {line pos : Nat} (hpos : pos < s.lineLength) :
    (s.mirrored image).sample line pos = s.sample line (s.lineLength - 1 - pos) := by
  by_cases hline : line < s.lineCount
  · have hpixel := h.pixel?
    unfold lineLength lineCount width height at *
    cases hy : s.traversal.isYMajor <;>
      simp_all [sample, mirrored, Image.intensity, Image.intensity?, Image.mirrorPlace, h.mode,
        h.colors]
  · -- no pixel is there in either image
    have hline := Nat.le_of_not_lt hline
    have hline' : (s.mirrored image).lineCount ≤ line := (lineCount_mirrored h).le.trans hline
    rw [sample_eq_zero_of_le (.inl hline'), sample_eq_zero_of_le (.inl hline)]

theorem values_mirrored (line : Nat) :
    (s.mirrored image).values line = (s.values line).reverse := by
  have hlength := lineLength_mirrored h
  refine List.ext_getElem (by simp [values, hlength]) fun pos hpos _ => ?_
  have hpos : pos < s.lineLength := by simpa [values, hlength] using hpos
  rw [List.getElem_reverse, values_getElem, values_getElem, sample_mirrored h hpos]
  simp [values]

theorem spans_mirrored :
    s.spans.Forall₂ (Span.Mirrors s.lineLength) (s.mirrored image).spans := by
  have hlines : (s.mirrored image).lines = s.lines := by
    rw [lines, lines, lineCount_mirrored h]
    simp [mirrored]
  have hspan : ∀ line, Option.Rel (Span.Mirrors s.lineLength) (s.span? line)
      ((s.mirrored image).span? line) := by
    intro line
    have hrel := Span.rel_ofLine?_reverse line (s.values line)
    rw [← values_mirrored h] at hrel
    rwa [values, List.length_map, List.length_range] at hrel
  rw [spans, spans, hlines]
  refine List.rel_filterMap (R := Eq) ?_ (List.forall₂_refl s.lines)
  rintro line _ rfl
  exact hspan line

end

theorem startsForward_mirrored : (s.mirrored image).startsForward = !s.startsForward := by
  simp [startsForward, mirrored]

theorem mirrors_strokesOver {length : Nat} {ps qs : List Span} (started forward : Bool)
    (h : ps.Forall₂ (Span.Mirrors length) qs) :
    (s.strokesOver started forward ps).Forall₂ (Stroke.Mirrors length)
      ((s.mirrored image).strokesOver started (!forward) qs) := by
  induction h generalizing started forward with
  | nil => exact .nil
  | @cons p q ps qs hp _ ih =>
    have hturned : (s.mirrored image).turned (!forward) = !s.turned forward := by
      rw [← turned_not]
      simp [turned, mirrored]
    have htravel : (if started then [p.travel forward] else []).Forall₂ (Stroke.Mirrors length)
        (if started then [q.travel (!forward)] else []) := by
      cases started
      · exact .nil
      · exact .cons ⟨hp.startPlace forward, rfl⟩ .nil
    rw [strokesOver, strokesOver, hturned]
    exact List.rel_append (List.rel_append (List.rel_append htravel (hp.sweep forward))
      (hp.runOut s.overscan forward)) (ih true _)

theorem place_mirrored (k : Stroke) : (s.mirrored image).place k = s.place k := by
  simp [place, point, major, mirrored]

theorem mirrors_strokes (h : s.image.IsMirror s.traversal.isYMajor image) :
    s.strokes.Forall₂ (Stroke.Mirrors s.lineLength) (s.mirrored image).strokes := by
  rw [strokes, strokes, startsForward_mirrored]
  exact mirrors_strokesOver false s.startsForward (spans_mirrored h)

theorem segments_mirrored : (s.mirrored image).segments = (s.mirrored image).strokes.map s.place :=
  List.map_congr_left fun k _ => place_mirrored k

theorem initialPlace?_mirrored (h : s.image.IsMirror s.traversal.isYMajor image) :
    Option.Rel (Place.Mirrors s.lineLength) s.initialPlace? (s.mirrored image).initialPlace? := by
  have hspans := spans_mirrored h
  unfold initialPlace?
  rw [startsForward_mirrored]
  generalize s.spans = ps, (s.mirrored image).spans = qs at hspans ⊢
  cases hspans with
  | nil => exact .none
  | cons hp _ => exact .some (hp.startPlace s.startsForward)

theorem initialPosition_mirrored : (s.mirrored image).initialPosition =
    ((s.mirrored image).initialPlace?.map s.scenePoint).getD s.offset := by
  refine (initialPosition_eq _).trans ?_
  have hpoint : (s.mirrored image).scenePoint = s.scenePoint := by
    funext p
    simp [scenePoint, point, major, mirrored]
  rw [hpoint]
  rfl

/-- The image is mirrored along the lines, and the scan starts at their other side. Then stroke by
stroke the line and the power are the same, and the place on the line is the mirrored one: its edge
is as far from the end, and it is as far past that edge the other way. So is the place where the
scan begins. Both scans are put into the scene in one way, which keeps the powers. Every image can
be so mirrored. -/
theorem mirrored_stroke_by_stroke (s : Scan) :
    (∀ image, s.image.IsMirror s.traversal.isYMajor image →
      let t := s.mirrored image
      (s.strokes.Forall₂ (Stroke.Mirrors s.lineLength) t.strokes ∧
        s.segments = s.strokes.map s.place ∧ t.segments = t.strokes.map s.place) ∧
      Option.Rel (Place.Mirrors s.lineLength) s.initialPlace? t.initialPlace? ∧
        s.initialPosition = (s.initialPlace?.map s.scenePoint).getD s.offset ∧
        t.initialPosition = (t.initialPlace?.map s.scenePoint).getD s.offset) ∧
    (∀ p, s.InScene p (s.scenePoint p)) ∧
    (∀ k, (s.place k).power = k.power ∧
      s.InScene ⟨k.line, k.edge, k.past⟩ ((s.place k).x, (s.place k).y)) ∧
    s.image.IsMirror s.traversal.isYMajor (s.image.mirror s.traversal.isYMajor) :=
  ⟨fun _ h => ⟨⟨mirrors_strokes h, rfl, segments_mirrored⟩, initialPlace?_mirrored h,
    s.initialPosition_eq, initialPosition_mirrored⟩, s.inScene_scenePoint,
    fun k => ⟨s.place_power k, s.inScene_place k⟩, s.image.isMirror_mirror _⟩

theorem mirrored_stroke_by_stroke_gray :
    let image : Image := ⟨3, 2, .luma, #[0, 255, 128, 7, 255, 128], #[],
      ⟨by decide, by decide, by decide, nofun, nofun⟩⟩
    let s : Scan := ⟨image, Traversal.yAxis.union .bottom, 2, (1.0, 5.0), 3, by decide⟩
    let t := s.mirrored (image.mirror s.traversal.isYMajor)
    (s.strokes.Forall₂ (Stroke.Mirrors 2) t.strokes ∧
      s.segments = s.strokes.map s.place ∧ t.segments = t.strokes.map s.place) ∧
    Option.Rel (Place.Mirrors 2) s.initialPlace? t.initialPlace? ∧
      s.initialPosition = (s.initialPlace?.map s.scenePoint).getD s.offset ∧
      t.initialPosition = (t.initialPlace?.map s.scenePoint).getD s.offset := by
  intro image s t
  have hmirror := (mirrored_stroke_by_stroke s).2.2.2
  have hlength : s.lineLength = 2 := by decide
  rw [← hlength]
  exact (mirrored_stroke_by_stroke s).1 _ hmirror

end Scan
end Engraver
