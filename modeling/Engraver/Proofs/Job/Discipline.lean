import Mathlib.Data.List.DropRight
import Engraver.Job.Operation

/-! # The mode discipline of jobs

Each command of an operation fits the commands before it: the head moves in rapid mode, burns in
program mode, and a scan is announced by one move to where it starts and one direction. The plots
and scans are those of the elements, in order.
-/

namespace Engraver

inductive Mode where
  | rapid
  | program
  | compact
  | default
  deriving DecidableEq, Repr

namespace Command

def mode? : Command → Option Mode
  | modeRapid => some .rapid
  | modeProgram => some .program
  | modeCompact => some .compact
  | modeDefault => some .default
  | _ => none

def target? : Command → Option (Float × Float)
  | move x y => some (x, y)
  | _ => none

def direction? : Command → Option ScanDirection
  | setDirection d => some d
  | _ => none

def outline? : Command → Option Path
  | plot p => some p
  | _ => none

def scan? : Command → Option Scan
  | raster s => some s
  | _ => none

/-- A command may stand in a job under this mode. -/
def Allowed (mode : Option Mode) : Command → Prop
  | move .. => mode = some .rapid
  | plot _ | raster _ => mode = some .program
  | laserOn | home | reset | setIncremental => False
  | _ => True

def lastMode (cs : List Command) : Option Mode :=
  (cs.filterMap mode?).getLast?

/-- The commands behind the last return to rapid mode. -/
def sinceRapid (cs : List Command) : List Command :=
  cs.rtakeWhile fun c => c.mode? ≠ some .rapid

/-- Since the last return to rapid mode, one move went to where the scan starts and one direction
was set, the scan's first. -/
def Announced (before : List Command) (s : Scan) : Prop :=
  (sinceRapid before).filterMap target? = [s.initialPosition] ∧
    (sinceRapid before).filterMap direction? = [s.initialDirection]

/-- A command has its place behind others. -/
structure Fits (before : List Command) (c : Command) : Prop where
  allowed : c.Allowed (lastMode before)
  announced : ∀ s ∈ c.scan?, Announced before s

def AllFit (before : List Command) : List Command → Prop
  | [] => True
  | c :: cs => Fits before c ∧ AllFit (before ++ [c]) cs

/-- Program mode is set once, between two rapid modes, no move comes after it and at most one before
it, which goes to where the first plot starts. -/
def ApproachesPlots (cs : List Command) : Prop :=
  ∃ before after, cs = before ++ .modeProgram :: after ∧
    before.filterMap mode? = [.rapid] ∧ after.filterMap mode? = [.rapid] ∧
    after.filterMap target? = [] ∧ (before.filterMap target?).length ≤ 1 ∧
    ∀ t ∈ before.filterMap target?, ∃ path ∈ (cs.filterMap outline?).head?,
      ∃ p ∈ path.firstPoint?, t = (p.x.toFloat, p.y.toFloat)

variable {before : List Command} {c : Command}

theorem lastMode_concat (cs : List Command) (c : Command) :
    lastMode (cs ++ [c]) = c.mode?.or (lastMode cs) := by
  rw [lastMode, List.filterMap_append]
  cases h : c.mode? with
  | none => simp [h, lastMode]
  | some m => simp [h]

theorem sinceRapid_concat (cs : List Command) (c : Command) :
    sinceRapid (cs ++ [c]) = if c.mode? = some .rapid then [] else sinceRapid cs ++ [c] := by
  rw [sinceRapid, List.rtakeWhile_concat]
  by_cases h : c.mode? = some .rapid <;> simp [h, sinceRapid]

theorem fits_of_allowed (hs : c.scan? = none) (h : c.Allowed (lastMode before)) :
    Fits before c :=
  ⟨h, fun s hm => by rw [hs] at hm; cases hm⟩

theorem allFit_iff (before cs : List Command) :
    AllFit before cs ↔ ∀ as c bs, cs = as ++ c :: bs → Fits (before ++ as) c := by
  induction cs generalizing before with
  | nil => simp [AllFit]
  | cons d cs ih =>
    rw [AllFit, ih]
    constructor
    · rintro ⟨hd, hcs⟩ as c bs he
      cases as with
      | nil =>
        obtain ⟨rfl, -⟩ := List.cons.inj he
        rwa [List.append_nil]
      | cons a as =>
        obtain ⟨rfl, htail⟩ := List.cons.inj he
        have h := hcs as c bs htail
        rwa [List.append_assoc] at h
    · intro h
      refine ⟨by simpa using h [] d cs rfl, fun as c bs he => ?_⟩
      have h := h (d :: as) c bs (congrArg (d :: ·) he)
      rwa [List.append_assoc]

theorem allFit_append (before as bs : List Command) :
    AllFit before (as ++ bs) ↔ AllFit before as ∧ AllFit (before ++ as) bs := by
  induction as generalizing before with
  | nil => simp [AllFit]
  | cons a as ih => simp [AllFit, ih, and_assoc]

end Command

namespace Operation

open Command

variable {before : List Command}

theorem allFit_header (o : Operation) (before : List Command) : AllFit before o.header := by
  refine ⟨?_, ?_, ?_, ?_, ?_, ?_, ?_, trivial⟩ <;> exact fits_of_allowed rfl trivial

theorem lastMode_header (o : Operation) : lastMode o.header = some .rapid := rfl

theorem approach_eq (es : List Element) :
    approach es = ((es.head?.bind Element.firstPoint?).map
      fun p => .move p.x.toFloat p.y.toFloat).toList := by
  cases es with
  | nil => rfl
  | cons e es =>
    rw [approach, List.head?_cons, Option.bind_some]
    cases e.firstPoint? <;> rfl

theorem allFit_approach (es : List Element) (h : lastMode before = some .rapid) :
    AllFit before (approach es) := by
  rw [approach_eq]
  cases es.head?.bind Element.firstPoint? with
  | none => trivial
  | some p => exact ⟨fits_of_allowed rfl h, trivial⟩

theorem allFit_plots (ps : List Path) (h : lastMode before = some .program) :
    AllFit before (ps.map .plot) := by
  induction ps generalizing before with
  | nil => trivial
  | cons p ps ih => exact ⟨fits_of_allowed rfl h, ih (by rw [lastMode_concat]; exact h)⟩

theorem plotBody_eq (es : List Element) :
    plotBody es = approach es ++ .modeProgram :: (es.filterMap Element.outline?).map .plot := by
  rw [plotBody, List.map_filterMap]

theorem allFit_plotBody (es : List Element) (h : lastMode before = some .rapid) :
    AllFit before (plotBody es) := by
  rw [plotBody_eq, allFit_append]
  refine ⟨allFit_approach es h, fits_of_allowed rfl trivial, allFit_plots _ ?_⟩
  rw [lastMode_concat]
  rfl

theorem allFit_scanCommands (before : List Command) (s : Scan) :
    AllFit before (scanCommands s) := by
  refine ⟨fits_of_allowed rfl trivial, fits_of_allowed rfl ?_, fits_of_allowed rfl trivial,
    fits_of_allowed rfl trivial, ⟨?_, fun t ht => ?_⟩, trivial⟩
  · rw [lastMode_concat]; rfl
  · rw [lastMode_concat]; rfl
  · cases ht
    simp only [Announced, sinceRapid_concat]
    exact ⟨rfl, rfl⟩

theorem allFit_flatMap_scanCommands (before : List Command) (ss : List Scan) :
    AllFit before (ss.flatMap scanCommands) := by
  induction ss generalizing before with
  | nil => trivial
  | cons s ss ih =>
    rw [List.flatMap_cons, allFit_append]
    exact ⟨allFit_scanCommands before s, ih _⟩

theorem allFit_body (o : Operation) (h : lastMode before = some .rapid) :
    AllFit before o.body := by
  unfold body
  split
  · exact ⟨fits_of_allowed rfl trivial, allFit_flatMap_scanCommands _ _⟩
  · exact allFit_plotBody o.elements h

theorem allFit_generate (o : Operation) : AllFit [] o.generate := by
  rw [generate, allFit_append, allFit_append]
  exact ⟨⟨o.allFit_header [], o.allFit_body o.lastMode_header⟩, fits_of_allowed rfl trivial,
    trivial⟩

section Parts

variable {α : Type} {f : Command → Option α}

theorem filterMap_generate (f : Command → Option α) (o : Operation) :
    o.generate.filterMap f =
      o.header.filterMap f ++ o.body.filterMap f ++ (f .modeRapid).toList := by
  rw [generate, List.filterMap_append, List.filterMap_append, List.filterMap_cons]
  cases f .modeRapid <;> rfl

theorem filterMap_approach (hf : ∀ x y, f (.move x y) = none) (es : List Element) :
    (approach es).filterMap f = [] := by
  rw [approach_eq]
  cases es.head?.bind Element.firstPoint? with
  | none => rfl
  | some p => exact List.filterMap_cons_none (hf _ _)

theorem filterMap_plots (hf : ∀ p, f (.plot p) = none) (ps : List Path) :
    (ps.map .plot).filterMap f = [] :=
  List.filterMap_eq_nil_iff.mpr (by simp [hf])

end Parts

theorem outlines_plots (ps : List Path) : (ps.map .plot).filterMap outline? = ps := by
  rw [List.filterMap_map]
  exact List.filterMap_some

theorem outlines_plotBody (es : List Element) :
    (plotBody es).filterMap outline? = es.filterMap Element.outline? := by
  rw [plotBody_eq, List.filterMap_append, filterMap_approach fun _ _ => rfl]
  exact outlines_plots _

theorem scans_plotBody (es : List Element) : (plotBody es).filterMap scan? = [] := by
  rw [plotBody_eq, List.filterMap_append, filterMap_approach fun _ _ => rfl]
  exact filterMap_plots (fun _ => rfl) _

theorem outlines_rasterBody (s : RasterSettings) (es : List Element) :
    (rasterBody s es).filterMap outline? = [] := by
  refine List.filterMap_eq_nil_iff.mpr fun c hc => ?_
  rcases List.mem_cons.mp hc with rfl | hc
  · rfl
  · obtain ⟨t, -, hc⟩ := List.mem_flatMap.mp hc
    simp only [scanCommands, List.mem_cons, List.not_mem_nil, or_false] at hc
    rcases hc with rfl | rfl | rfl | rfl | rfl <;> rfl

theorem scans_flatMap_scanCommands (ss : List Scan) :
    (ss.flatMap scanCommands).filterMap scan? = ss := by
  induction ss with
  | nil => rfl
  | cons s ss ih => rw [List.flatMap_cons, List.filterMap_append, ih]; rfl

theorem scans_rasterBody (s : RasterSettings) (es : List Element) :
    (rasterBody s es).filterMap scan? = scans s es :=
  scans_flatMap_scanCommands _

/-- The move in front of the plots goes to where the first of them starts. -/
theorem exists_outline_of_mem_targets_approach {es : List Element} {t : Float × Float}
    (ht : t ∈ (approach es).filterMap target?) :
    ∃ path ∈ (es.filterMap Element.outline?).head?, ∃ p ∈ path.firstPoint?,
      t = (p.x.toFloat, p.y.toFloat) := by
  rw [approach_eq] at ht
  cases es with
  | nil => cases ht
  | cons e es =>
    rw [List.head?_cons, Option.bind_some, e.firstPoint?_eq] at ht
    cases ho : e.outline? with
    | none => rw [ho] at ht; cases ht
    | some path =>
      rw [ho, Option.bind_some] at ht
      refine ⟨path, by rw [List.filterMap_cons_some ho]; rfl, ?_⟩
      cases hp : path.firstPoint? with
      | none => rw [hp] at ht; cases ht
      | some p =>
        rw [hp] at ht
        exact ⟨p, rfl, List.mem_singleton.mp ht⟩

theorem length_targets_approach_le (es : List Element) :
    ((approach es).filterMap target?).length ≤ 1 := by
  rw [approach_eq]
  cases es.head?.bind Element.firstPoint? <;> simp [target?]

theorem approachesPlots_of_body_eq {o : Operation} (h : o.body = plotBody o.elements) :
    ApproachesPlots o.generate := by
  let plots : List Command := (o.elements.filterMap Element.outline?).map .plot
  have hplots : o.generate.filterMap outline? = o.elements.filterMap Element.outline? := by
    rw [filterMap_generate, h, outlines_plotBody]
    exact List.append_nil _
  refine ⟨o.header ++ approach o.elements, plots ++ [.modeRapid], ?_, ?_, ?_, ?_,
    length_targets_approach_le o.elements, fun t ht => ?_⟩
  · rw [generate, h, plotBody_eq]
    simp only [List.append_assoc, List.cons_append, plots]
  · rw [List.filterMap_append, filterMap_approach fun _ _ => rfl]
    rfl
  · rw [List.filterMap_append, filterMap_plots fun _ => rfl]
    rfl
  · rw [List.filterMap_append, filterMap_plots fun _ => rfl]
    rfl
  · rw [hplots]
    exact exists_outline_of_mem_targets_approach ht

/-- A job begins and ends in rapid mode, and each of its commands fits those before it. A raster
job scans its images and plots nothing; any other plots its outlines, which it approaches by at most
one move, and scans nothing. -/
theorem generate_disciplined (o : Operation) :
    o.generate.head? = some .modeRapid ∧ o.generate.getLast? = some .modeRapid ∧
    (∀ before c after, o.generate = before ++ c :: after → Fits before c) ∧
    match o.kind with
    | .raster s =>
      o.generate.filterMap outline? = [] ∧
      o.generate.filterMap scan? = o.elements.filterMap fun e =>
        e.image?.map fun i => .ofSettings i s.traversal s.overscan e.offset s.step
    | _ =>
      o.generate.filterMap scan? = [] ∧
      o.generate.filterMap outline? = o.elements.filterMap Element.outline? ∧
      ApproachesPlots o.generate := by
  refine ⟨rfl, by rw [generate, List.getLast?_concat],
    (allFit_iff [] o.generate).mp o.allFit_generate, ?_⟩
  split
  case _ s hk =>
    have hb : o.body = rasterBody s o.elements := by rw [body, hk]
    constructor
    · rw [filterMap_generate, hb, outlines_rasterBody]
      rfl
    · rw [filterMap_generate, hb, scans_rasterBody]
      exact List.append_nil _
  case _ hk =>
    have hb : o.body = plotBody o.elements := by
      unfold body
      split
      · next s h => exact absurd h (hk s)
      · rfl
    refine ⟨?_, ?_, approachesPlots_of_body_eq hb⟩
    · rw [filterMap_generate, hb, scans_plotBody]
      rfl
    · rw [filterMap_generate, hb, outlines_plotBody]
      exact List.append_nil _

end Operation
end Engraver
