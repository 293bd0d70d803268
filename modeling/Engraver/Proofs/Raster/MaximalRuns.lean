import Mathlib.Data.List.SplitBy
import Engraver.Proofs.Raster.Order

/-! # A scan has no stroke too many

A sweep takes the pixels of its line from the first that burns to the last, one stroke for each
maximal run of equal intensity. Between the sweeps of two lines there is one travel, and behind each
sweep one stroke over its end if there is overscan.
-/

namespace Engraver

namespace Run

variable {f : Nat → Float}

def same (f : Nat → Float) (a b : Nat) : Bool :=
  f a == f b

theorem same_comm (f : Nat → Float) (a b : Nat) : same f a b = same f b a :=
  BEq.comm

theorem same_trans {a b c : Nat} (h : same f a b) (h' : same f b c) : same f a c :=
  PartialEquivBEq.trans h h'

def ofPixels (f : Nat → Float) (pixels : List Nat) : Run :=
  ⟨pixels.length, f (pixels.headD 0)⟩

/-- Pixels of equal intensity are one run if the run behind them differs from the last of them. -/
theorem foldr_push_eq_cons {b : List Nat} (hn : b ≠ []) (hb : b.IsChain (same f · ·))
    {rs : List Run} (hrs : ∀ r ∈ rs.head?, (f (b.getLast hn) == r.power) = false) :
    (b.map f).foldr push rs = ofPixels f b :: rs := by
  induction b with
  | nil => contradiction
  | cons x b ih =>
    cases b with
    | nil =>
      cases rs with
      | nil => rfl
      | cons r rs => simp_all [push, ofPixels]
    | cons y b =>
      obtain ⟨hxy, hb⟩ := List.isChain_cons_cons.mp hb
      have hxy : (f x == f y) = true := hxy
      rw [List.map_cons, List.foldr_cons, ih (by simp) hb hrs]
      simp [push, ofPixels, hxy]

theorem ofValues_map (f : Nat → Float) (pixels : List Nat) :
    ofValues (pixels.map f) = (pixels.splitBy (same f)).map (ofPixels f) := by
  have hblocks : ∀ bs : List (List Nat), [] ∉ bs → (∀ b ∈ bs, b.IsChain (same f · ·)) →
      bs.IsChain (fun a b => ∃ ha hb, same f (a.getLast ha) (b.head hb) = false) →
      ofValues (bs.flatten.map f) = bs.map (ofPixels f) := by
    intro bs
    induction bs with
    | nil => exact fun _ _ _ => rfl
    | cons b bs ih =>
      intro hn hb hbs
      rw [List.mem_cons, not_or] at hn
      obtain ⟨hb, hchains⟩ := List.forall_mem_cons.mp hb
      obtain ⟨hnext, hbs⟩ := List.isChain_cons.mp hbs
      have ih := ih hn.2 hchains hbs
      rw [List.flatten_cons, List.map_append, ofValues, List.foldr_append, ← ofValues, ih]
      refine foldr_push_eq_cons (Ne.symm hn.1) hb fun r hr => ?_
      rw [List.head?_map] at hr
      obtain ⟨c, hc, rfl⟩ := Option.mem_map.mp hr
      obtain ⟨_, hc, hdiffer⟩ := hnext c hc
      obtain ⟨x, c, rfl⟩ := List.exists_cons_of_ne_nil hc
      exact hdiffer
  have h := hblocks (pixels.splitBy (same f)) (List.nil_notMem_splitBy _ _)
    (fun b hb => List.isChain_of_mem_splitBy hb) (List.isChain_getLast_head_splitBy _ _)
  rwa [List.flatten_splitBy] at h

theorem pairwise_of_mem_splitBy {pixels b : List Nat} (h : b ∈ pixels.splitBy (same f)) :
    b.Pairwise (same f · ·) := by
  have : Trans (same f · · = true) (same f · · = true) (same f · · = true) := ⟨same_trans⟩
  exact (List.isChain_of_mem_splitBy h).pairwise

theorem isChain_power_splitBy (f : Nat → Float) (pixels : List Nat) :
    (pixels.splitBy (same f)).IsChain fun a b => (f (a.headD 0) == f (b.headD 0)) = false := by
  refine (List.isChain_getLast_head_splitBy (same f) pixels).imp_of_mem_imp ?_
  rintro a b ha - ⟨hn, hn', hdiffer⟩
  have hpairs := pairwise_of_mem_splitBy ha
  obtain ⟨x, a, rfl⟩ := List.exists_cons_of_ne_nil hn
  obtain ⟨y, b, rfl⟩ := List.exists_cons_of_ne_nil hn'
  rcases List.mem_cons.mp (List.getLast_mem hn) with hlast | hlast
  · rw [hlast] at hdiffer
    exact hdiffer
  · -- all of a run equals its first pixel, so with an equal power the next would go on in it
    rw [Bool.eq_false_iff] at hdiffer ⊢
    intro hxy
    have hfirst := List.rel_of_pairwise_cons hpairs hlast
    rw [same_comm] at hfirst
    exact hdiffer (same_trans hfirst hxy)

theorem length_splitBy_reverse (f : Nat → Float) (pixels : List Nat) :
    (pixels.reverse.splitBy (same f)).length = (pixels.splitBy (same f)).length := by
  let bs := pixels.splitBy (same f)
  have hn : [] ∉ (bs.map List.reverse).reverse := by
    simp [bs]
  have hchains : ∀ b ∈ (bs.map List.reverse).reverse, b.IsChain (same f · ·) := by
    intro b hb
    obtain ⟨c, hc, rfl⟩ := List.mem_map.mp (List.mem_reverse.mp hb)
    exact List.isChain_reverse.mpr
      ((List.isChain_of_mem_splitBy hc).imp fun x y h => (same_comm f y x).trans h)
  have hnext : (bs.map List.reverse).reverse.IsChain
      fun a b => ∃ ha hb, same f (a.getLast ha) (b.head hb) = false := by
    refine List.isChain_reverse.mpr ((List.isChain_map _).mpr ?_)
    refine (List.isChain_getLast_head_splitBy (same f) pixels).imp ?_
    rintro a b ⟨ha, hb, hdiffer⟩
    refine ⟨List.reverse_ne_nil_iff.mpr hb, List.reverse_ne_nil_iff.mpr ha, ?_⟩
    rwa [List.getLast_reverse, List.head_reverse, same_comm]
  have hsplit := List.splitBy_flatten hn hchains hnext
  rw [← List.reverse_flatten, List.flatten_splitBy] at hsplit
  rw [hsplit, List.length_reverse, List.length_map]

end Run

namespace Scan

/-- The pixels of a line from the first that burns to the last. -/
def stretch (s : Scan) (line : Nat) : List Nat :=
  (List.range s.lineLength).filter fun pos =>
    (∃ a ≤ pos, 0.0 < s.sample line a) ∧ ∃ b < s.lineLength, pos ≤ b ∧ 0.0 < s.sample line b

/-- The lines with something to burn, in the order of the scan. -/
def burningLines (s : Scan) : List Nat :=
  s.lines.filter fun line => ∃ pos < s.lineLength, 0.0 < s.sample line pos

def swept (s : Scan) (line : Nat) (forward : Bool) : List Nat :=
  if forward then s.stretch line else (s.stretch line).reverse

/-- The maximal runs of pixels of equal intensity, in the direction of a sweep. -/
def runs (s : Scan) (line : Nat) (forward : Bool) : List (List Nat) :=
  (s.swept line forward).splitBy (Run.same (s.sample line))

end Scan

def edgeBefore (forward : Bool) (pos : Nat) : Nat :=
  if forward then pos else pos + 1

def edgeBehind (forward : Bool) (pos : Nat) : Nat :=
  if forward then pos + 1 else pos

namespace Scan

/-- The stroke over a run, at the intensity of its first pixel. -/
def runStroke (s : Scan) (line : Nat) (forward : Bool) (run : List Nat) : Stroke :=
  ⟨line, edgeBehind forward (run.getLastD 0), 0, s.sample line (run.headD 0)⟩

/-- The strokes for the line after `k` others that burn. -/
def lineStrokes (s : Scan) (line k : Nat) : List Stroke :=
  let forward := s.wayAfter s.startsForward k
  let pixels := s.swept line forward
  (if k = 0 then [] else [⟨line, edgeBefore forward (pixels.headD 0), 0, 0.0⟩]) ++
    (s.runs line forward).map (s.runStroke line forward) ++
    (if s.overscan = 0 then []
      else [⟨line, edgeBehind forward (pixels.getLastD 0),
        if forward then s.overscan else -s.overscan, 0.0⟩])

end Scan

namespace Span

def ahead (forward : Bool) (edge i : Nat) : Nat :=
  if forward then edge + i else edge - 1 - i

def walk (forward : Bool) (edge n : Nat) : List Nat :=
  (List.range n).map (ahead forward edge)

theorem length_walk (forward : Bool) (edge n : Nat) : (walk forward edge n).length = n := by
  rw [walk, List.length_map, List.length_range]

theorem walk_add (forward : Bool) (edge m n : Nat) :
    walk forward edge (m + n) =
      walk forward edge m ++ walk forward (if forward then edge + m else edge - m) n := by
  rw [walk, List.range_add, List.map_append, List.map_map]
  refine congrArg (walk forward edge m ++ ·) (List.map_congr_left fun i _ => ?_)
  cases forward <;> simp [ahead] <;> omega

theorem edgeBefore_walk {forward : Bool} {edge n : Nat} (hn : 0 < n)
    (hedge : forward = false → 0 < edge) :
    edgeBefore forward ((walk forward edge n).headD 0) = edge := by
  obtain ⟨n, rfl⟩ := Nat.exists_eq_add_of_lt hn
  cases forward <;> simp [walk, ahead, edgeBefore, List.range_succ_eq_map] at hedge ⊢
  omega

theorem edgeBehind_walk (forward : Bool) (edge : Nat) {n : Nat} (hn : 0 < n) :
    edgeBehind forward ((walk forward edge n).getLastD 0) =
      if forward then edge + n else edge - n := by
  obtain ⟨n, rfl⟩ := Nat.exists_eq_add_of_lt hn
  cases forward <;> simp [walk, ahead, edgeBehind, List.range_succ] <;> omega

theorem strokesFrom_ofPixels (f : Nat → Float) (line : Nat) (forward : Bool)
    {bs : List (List Nat)} (hbs : [] ∉ bs) {edge n : Nat} (h : bs.flatten = walk forward edge n) :
    strokesFrom line forward edge (bs.map (Run.ofPixels f)) =
      bs.map fun b => ⟨line, edgeBehind forward (b.getLastD 0), 0, f (b.headD 0)⟩ := by
  induction bs generalizing edge n with
  | nil => rfl
  | cons b bs ih =>
    rw [List.mem_cons, not_or] at hbs
    have hb : 0 < b.length := List.length_pos_of_ne_nil (Ne.symm hbs.1)
    have hlength : n = b.length + bs.flatten.length := by
      rw [← length_walk forward edge n, ← h, List.flatten_cons, List.length_append]
    rw [List.flatten_cons, hlength, walk_add] at h
    -- the block in front goes up to the edge from which the others go on
    obtain ⟨hblock, hrest⟩ := List.append_inj h (length_walk ..).symm
    have hedge := edgeBehind_walk forward edge hb
    rw [← hblock] at hedge
    rw [List.map_cons, List.map_cons, hedge]
    exact congrArg (_ :: ·) (ih hbs.2 hrest)

end Span

namespace Scan

open Engraver.Span

variable {s : Scan}

theorem Framed.stretch_eq {p : Span} (h : s.Framed p) :
    s.stretch p.line = List.range' p.first p.values.length := by
  have hinside := h.inside
  have hpos := h.length_pos
  refine (List.pairwise_lt_range.filter _).eq_of_mem_iff List.pairwise_lt_range' fun pos => ?_
  rw [List.mem_filter, List.mem_range, List.mem_range'_1, decide_eq_true_iff]
  have hlast : p.last = p.first + p.values.length := rfl
  constructor
  · rintro ⟨-, ⟨a, ha, hburns⟩, b, -, hb, hburns'⟩
    have hfirst := (h.burns_inside a hburns).1
    have hlast := (h.burns_inside b hburns').2
    omega
  · rintro ⟨hfirst, hend⟩
    refine ⟨by omega, ⟨p.first, hfirst, h.burns_first⟩, p.last - 1, by omega, by omega,
      h.burns_last⟩

theorem Framed.swept_eq {p : Span} (h : s.Framed p) (forward : Bool) :
    s.swept p.line forward = walk forward (p.start forward) p.values.length := by
  rw [swept, h.stretch_eq]
  cases forward with
  | true => exact List.range'_eq_map_range
  | false =>
    refine List.ext_getElem (by simp [walk]) fun i hi _ => ?_
    have hi : i < p.values.length := by simpa using hi
    simp [walk, ahead, start, last]
    omega

theorem Framed.map_sample_swept {p : Span} (h : s.Framed p) (forward : Bool) :
    (s.swept p.line forward).map (s.sample p.line) =
      if forward then p.values else p.values.reverse := by
  have hstretch : (s.stretch p.line).map (s.sample p.line) = p.values := by
    rw [h.stretch_eq]
    refine List.ext_getElem (by simp) fun i hi hi' => ?_
    simp [h.values_eq i hi']
  unfold swept
  cases forward with
  | true => exact hstretch
  | false => exact (List.map_reverse ..).trans (congrArg List.reverse hstretch)

/-- The strokes over a span are those over the maximal runs of its line. -/
theorem Framed.sweep_eq {p : Span} (h : s.Framed p) (forward : Bool) :
    p.sweep forward = (s.runs p.line forward).map (s.runStroke p.line forward) := by
  have hflatten : (s.runs p.line forward).flatten =
      walk forward (p.start forward) p.values.length := by
    rw [runs, List.flatten_splitBy, h.swept_eq]
  rw [sweep, ← h.map_sample_swept, Run.ofValues_map]
  exact strokesFrom_ofPixels _ p.line forward (List.nil_notMem_splitBy _ _) hflatten

theorem Framed.edgeBefore_swept {p : Span} (h : s.Framed p) (forward : Bool) :
    edgeBefore forward ((s.swept p.line forward).headD 0) = p.start forward := by
  rw [h.swept_eq]
  refine edgeBefore_walk h.length_pos fun hf => ?_
  subst hf
  exact Nat.add_pos_right p.first h.length_pos

theorem Framed.edgeBehind_swept {p : Span} (h : s.Framed p) (forward : Bool) :
    edgeBehind forward ((s.swept p.line forward).getLastD 0) = p.stop forward := by
  rw [h.swept_eq, edgeBehind_walk _ _ h.length_pos]
  cases forward <;> simp [start, stop, last]

/-- The strokes for a line are the travel to its span, the sweep and the run-out. -/
theorem Framed.lineStrokes_eq {p : Span} (h : s.Framed p) (k : Nat) :
    let forward := s.wayAfter s.startsForward k
    s.lineStrokes p.line k =
      (if k = 0 then [] else [p.travel forward]) ++ s.visit p forward := by
  unfold lineStrokes visit
  dsimp only
  rw [h.edgeBefore_swept, h.edgeBehind_swept, h.sweep_eq, List.append_assoc]
  rfl

theorem turned_wayAfter (s : Scan) (forward : Bool) (k : Nat) :
    s.turned (s.wayAfter forward k) = s.wayAfter forward (k + 1) := by
  rw [← wayAfter_turned]
  unfold wayAfter
  split
  · rfl
  · exact s.turned_not forward

theorem strokesOver_eq {ps : List Span} (hf : ∀ p ∈ ps, s.Framed p) (k : Nat) :
    s.strokesOver (k ≠ 0) (s.wayAfter s.startsForward k) ps =
      ((ps.map Span.line).zipIdx k).flatMap fun l => s.lineStrokes l.1 l.2 := by
  induction ps generalizing k with
  | nil => rfl
  | cons p ps ih =>
    obtain ⟨hp, hf⟩ := List.forall_mem_cons.mp hf
    have hrest := ih hf (k + 1)
    have htravel : ∀ ks : List Stroke,
        (if decide (k ≠ 0) then ks else []) = if k = 0 then [] else ks := by
      intro ks
      by_cases hk : k = 0 <;> simp [hk]
    rw [strokesOver_cons, turned_wayAfter, htravel, List.map_cons, List.zipIdx_cons,
      List.flatMap_cons, hp.lineStrokes_eq, ← hrest, List.append_assoc]
    rfl

theorem burningLines_eq (s : Scan) : s.burningLines = s.spans.map Span.line := by
  rw [burningLines, spans, List.map_filterMap, ← List.filterMap_eq_filter]
  refine List.filterMap_congr fun line _ => ?_
  cases hp : s.span? line with
  | none =>
    have hblank := not_burning_of_span?_eq_none hp
    simp [Option.guard, hblank]
  | some p =>
    obtain ⟨rfl, hf⟩ := framed_of_span? hp
    have hlast := hf.inside
    have hpos := hf.length_pos
    have hburns : ∃ pos < s.lineLength, 0.0 < s.sample p.line pos := by
      refine ⟨p.first, ?_, hf.burns_first⟩
      unfold last at hlast
      omega
    simp [Option.guard, hburns]

theorem strokes_eq (s : Scan) :
    s.strokes = s.burningLines.zipIdx.flatMap fun l => s.lineStrokes l.1 l.2 := by
  have hway : s.wayAfter s.startsForward 0 = s.startsForward := by simp [wayAfter]
  have h := strokesOver_eq (fun p hp => framed_of_mem_spans (s := s) hp) 0
  rw [hway] at h
  rw [burningLines_eq]
  exact h

theorem length_runs (s : Scan) (line : Nat) (forward : Bool) :
    (s.runs line forward).length = (s.runs line true).length := by
  cases forward with
  | true => rfl
  | false => exact Run.length_splitBy_reverse (s.sample line) (s.stretch line)

theorem length_lineStrokes (s : Scan) (line k : Nat) :
    (s.lineStrokes line k).length =
      (if k = 0 then 0 else 1) + (s.runs line true).length + if s.overscan = 0 then 0 else 1 := by
  unfold lineStrokes
  simp only [List.length_append, List.length_map, length_runs]
  congr 2 <;> split <;> rfl

theorem sum_length_lineStrokes (s : Scan) (lines : List Nat) {k : Nat} (hk : k ≠ 0) :
    ((lines.zipIdx k).map fun l => (s.lineStrokes l.1 l.2).length).sum =
      (lines.map fun line => (s.runs line true).length).sum + lines.length +
        if s.overscan = 0 then 0 else lines.length := by
  induction lines generalizing k with
  | nil => simp
  | cons line lines ih =>
    rw [List.zipIdx_cons, List.map_cons, List.sum_cons, ih k.succ_ne_zero, length_lineStrokes,
      if_neg hk, List.map_cons, List.sum_cons, List.length_cons]
    dsimp only
    split <;> omega

theorem length_segments (s : Scan) :
    s.segments.length =
      (s.burningLines.map fun line => (s.runs line true).length).sum +
        (s.burningLines.length - 1) + if s.overscan = 0 then 0 else s.burningLines.length := by
  rw [segments, List.length_map, strokes_eq, List.length_flatMap]
  cases s.burningLines with
  | nil => simp
  | cons line lines =>
    rw [List.zipIdx_cons, List.map_cons, List.sum_cons, s.sum_length_lineStrokes lines (by simp),
      length_lineStrokes, if_pos rfl, List.map_cons, List.sum_cons, List.length_cons]
    dsimp only
    split <;> omega

/-- The runs of a sweep are the pixels from the first burning one to the last, cut where the
intensity changes, and no stroke over them leaves the edges of these two. -/
structure SweepsMaximalRuns (s : Scan) (line : Nat) (forward : Bool) : Prop where
  flatten : (s.runs line forward).flatten = s.swept line forward
  nonempty : [] ∉ s.runs line forward
  same : ∀ run ∈ s.runs line forward, run.Pairwise fun a b => s.sample line a == s.sample line b
  differ : ((s.runs line forward).map (s.runStroke line forward)).IsChain
    fun k l => (k.power == l.power) = false
  inside : ∃ first last, 0.0 < s.sample line first ∧ 0.0 < s.sample line last ∧
    (∀ pos, 0.0 < s.sample line pos → first ≤ pos ∧ pos ≤ last) ∧
    s.stretch line = List.range' first (last + 1 - first) ∧
    ∀ run ∈ s.runs line forward, first ≤ (s.runStroke line forward run).edge ∧
      (s.runStroke line forward run).edge ≤ last + 1

theorem mem_stretch_of_mem_runs {line pos : Nat} {forward : Bool} {run : List Nat}
    (hrun : run ∈ s.runs line forward) (hpos : pos ∈ run) : pos ∈ s.stretch line := by
  have hswept : pos ∈ s.swept line forward := by
    rw [← List.flatten_splitBy (Run.same (s.sample line)) (s.swept line forward)]
    exact List.mem_flatten.mpr ⟨run, hrun, hpos⟩
  unfold swept at hswept
  split at hswept
  · exact hswept
  · exact List.mem_reverse.mp hswept

theorem getLastD_mem {run : List Nat} (hn : run ≠ []) : run.getLastD 0 ∈ run := by
  rw [List.getLastD_eq_getLast?, List.getLast?_eq_some_getLast hn]
  exact List.getLast_mem hn

theorem Framed.sweepsMaximalRuns {p : Span} (h : s.Framed p) (forward : Bool) :
    s.SweepsMaximalRuns p.line forward where
  flatten := List.flatten_splitBy _ _
  nonempty := List.nil_notMem_splitBy _ _
  same := fun _ hrun => Run.pairwise_of_mem_splitBy hrun
  differ := (List.isChain_map _).mpr (Run.isChain_power_splitBy _ _)
  inside := by
    have hpos := h.length_pos
    have hlast : p.last = p.first + p.values.length := rfl
    refine ⟨p.first, p.last - 1, h.burns_first, h.burns_last, fun pos hb => ?_, ?_,
      fun run hrun => ?_⟩
    · have hb := h.burns_inside pos hb
      omega
    · rw [h.stretch_eq]
      congr 1
      omega
    · have hmem : run.getLastD 0 ∈ s.stretch p.line :=
        mem_stretch_of_mem_runs hrun (getLastD_mem (List.ne_nil_of_mem_splitBy hrun))
      rw [h.stretch_eq, List.mem_range'_1] at hmem
      unfold runStroke edgeBehind
      dsimp only
      split <;> omega

/-- For each line with something to burn, in the order of the scan, there is a travel to the start
of its sweep unless it is the first, one stroke for each maximal run of equal intensity from the
first burning pixel to the last in the direction of the sweep, and a stroke over the end if there is
overscan. The segments are these strokes in the scene, with their powers. -/
theorem segments_eq_maximal_runs (s : Scan) :
    (s.segments = (s.burningLines.zipIdx.flatMap fun l => s.lineStrokes l.1 l.2).map s.place ∧
      ∀ k, (s.place k).power = k.power ∧
        s.InScene ⟨k.line, k.edge, k.past⟩ ((s.place k).x, (s.place k).y)) ∧
    (∀ line ∈ s.burningLines, ∀ forward, s.SweepsMaximalRuns line forward) ∧
    s.segments.length =
      (s.burningLines.map fun line => (s.runs line true).length).sum +
        (s.burningLines.length - 1) + if s.overscan = 0 then 0 else s.burningLines.length := by
  refine ⟨⟨congrArg (List.map s.place) s.strokes_eq,
    fun k => ⟨s.place_power k, s.inScene_place k⟩⟩, fun line hline forward => ?_,
    s.length_segments⟩
  rw [burningLines_eq] at hline
  obtain ⟨p, hp, rfl⟩ := List.mem_map.mp hline
  exact (framed_of_mem_spans hp).sweepsMaximalRuns forward

end Scan
end Engraver
