import Engraver.Proofs.Job.Outcome

/-! # What a raster job announces

The header of a raster job gives the step as it is set, while a scan takes a step of at least one.
The two are the same since no way of making or changing an operation lets a smaller step in.
Directions are announced once and again for each scan, and are those of the settings. The estimate
reads the step of an image from its properties a second time, without the bound of 32 bits that the
settings have. So an operation on one image is estimated with the step that it announces, but for a
step beyond that bound: then the settings keep to a step of one.
-/

namespace Engraver

namespace Command

def step? : Command → Option Int
  | setStep n => some n
  | _ => none

theorem step?_of_isWork {c : Command} (h : c.isWork) : c.step? = none := by
  cases c with
  | setStep n => cases h
  | _ => rfl

end Command

namespace OperationKind

def Stepped (k : OperationKind) : Prop :=
  ∀ s ∈ k.raster?, 1 ≤ s.step

theorem stepped_default (t : OperationType) : (default t).Stepped := by
  cases t with
  | raster =>
    rintro s ⟨⟩
    decide
  | _ => rintro s ⟨⟩

theorem Stepped.convert {k : OperationKind} (h : k.Stepped) (t : OperationType) :
    (k.convert t).Stepped := by
  cases k with
  | raster s =>
    cases t with
    | raster => exact h
    | cut => exact stepped_default .cut
    | engrave => exact stepped_default .engrave
  | _ => exact stepped_default t

theorem Stepped.applyKind {k : OperationKind} (h : k.Stepped) {u : SettingsUpdate}
    (hu : ∀ n ∈ u.step, 1 ≤ n) : (u.applyKind k).Stepped := by
  cases k with
  | raster s =>
    rintro t ⟨⟩
    change 1 ≤ u.step.getD s.step
    cases hn : u.step with
    | none => exact h s rfl
    | some n => exact hu n hn
  | _ => exact h

end OperationKind

theorem SettingsUpdate.one_le_step (p : Properties) : ∀ n ∈ (read p).step, 1 ≤ n := by
  intro n hn
  simpa using (Option.filter_eq_some_iff.mp hn).2

namespace Operation

open Command

/-- What can be made of operations without a hand on the raster settings. -/
inductive Reachable : Operation → Prop
  | ofType (t : OperationType) : Reachable (ofType t)
  | ofProperties (t : OperationType) (p : Properties) : Reachable (ofProperties t p)
  | ofElement (t : OperationType) (e : Element) : Reachable (ofElement t e)
  | convert {o : Operation} (t : OperationType) : Reachable o → Reachable (o.convert t)
  | setProperties {o : Operation} (p : Properties) : Reachable o → Reachable (o.setProperties p)
  | push {o : Operation} (e : Element) : Reachable o → Reachable (o.push e)
  | extend {o : Operation} (es : List Element) : Reachable o → Reachable (o.extend es)
  | clear {o : Operation} : Reachable o → Reachable o.clear

variable {o : Operation}

theorem stepped_setProperties (h : o.kind.Stepped) (p : Properties) :
    (o.setProperties p).kind.Stepped :=
  h.applyKind (SettingsUpdate.one_le_step p)

theorem Reachable.stepped (h : o.Reachable) : o.kind.Stepped := by
  induction h with
  | ofType t => exact OperationKind.stepped_default t
  | ofProperties t p => exact stepped_setProperties (OperationKind.stepped_default t) p
  | ofElement t e => exact stepped_setProperties (OperationKind.stepped_default t) e.values
  | convert t _ ih => exact ih.convert t
  | setProperties p _ ih => exact stepped_setProperties ih p
  | push e _ ih => exact ih
  | extend es _ ih => exact ih
  | clear _ ih => exact ih

variable {s : RasterSettings}

theorem body_eq_rasterBody (h : o.kind = .raster s) : o.body = rasterBody s o.elements := by
  rw [body, h]

theorem steps_generate (h : o.kind = .raster s) : o.generate.filterMap step? = [s.step] := by
  rw [filterMap_generate, filterMap_body fun _ => step?_of_isWork, header, h]
  rfl

theorem scans_generate (h : o.kind = .raster s) :
    o.generate.filterMap scan? = scans s o.elements := by
  rw [filterMap_generate, body_eq_rasterBody h, scans_rasterBody]
  exact List.append_nil _

theorem directions_flatMap_scanCommands (ts : List Scan) :
    (ts.flatMap scanCommands).filterMap direction? = ts.map Scan.initialDirection := by
  induction ts with
  | nil => rfl
  | cons t ts ih =>
    rw [List.flatMap_cons, List.filterMap_append, ih]
    rfl

theorem map_initialDirection_scans (s : RasterSettings) (es : List Element) :
    (scans s es).map Scan.initialDirection =
      List.replicate (scans s es).length s.traversal.direction := by
  refine List.eq_replicate_iff.mpr ⟨List.length_map _, fun d hd => ?_⟩
  obtain ⟨t, ht, rfl⟩ := List.mem_map.mp hd
  obtain ⟨e, -, he⟩ := List.mem_filterMap.mp ht
  obtain ⟨i, -, rfl⟩ := Option.map_eq_some_iff.mp he
  rfl

theorem directions_generate (h : o.kind = .raster s) :
    o.generate.filterMap direction? =
      List.replicate ((scans s o.elements).length + 1) s.traversal.direction := by
  have hwork : (rasterBody s o.elements).filterMap direction? =
      s.traversal.direction :: (scans s o.elements).map Scan.initialDirection := by
    rw [← directions_flatMap_scanCommands]
    rfl
  rw [filterMap_generate, body_eq_rasterBody h, hwork, map_initialDirection_scans]
  exact List.append_nil _

/-- The scan of an image element as the settings have it. -/
structure ScanOf (s : RasterSettings) (e : Element) (t : Scan) : Prop where
  image : e.image? = some t.image
  traversal : t.traversal = s.traversal
  overscan : (t.overscan : Int) = max s.overscan 0
  offset : t.offset = (e.transform.m31.toFloat, e.transform.m32.toFloat)
  step : (t.step : Int) = s.step
  direction : t.initialDirection = s.traversal.direction

theorem scanOf_scan (hs : 1 ≤ s.step) {e : Element} {i : Image} (hi : e.image? = some i) :
    ScanOf s e (scan s e i) where
  image := hi
  traversal := rfl
  overscan := by simp only [scan, Scan.ofSettings]; omega
  offset := rfl
  step := by simp only [scan, Scan.ofSettings]; omega
  direction := rfl

theorem forall₂_scans (hs : 1 ≤ s.step) (es : List Element) :
    List.Forall₂ (ScanOf s) (es.filter (·.image?.isSome)) (scans s es) := by
  induction es with
  | nil => exact .nil
  | cons e es ih =>
    cases hi : e.image? with
    | none =>
      rw [scans, List.filter_cons_of_neg (by simp [hi]), List.filterMap_cons_none (by simp [hi])]
      exact ih
    | some i =>
      rw [scans, List.filter_cons_of_pos (by simp [hi]),
        List.filterMap_cons_some (by rw [hi]; rfl)]
      exact .cons (scanOf_scan hs hi) ih

/-- A raster job announces one step, of at least one, and one direction, at the start and again for
each scan. Its scans are those of its image elements in order, each with the announced step and
direction, the traversal and overscan of the settings, and in the place of its element. -/
theorem scans_as_announced (h : o.Reachable) (hs : o.kind = .raster s) :
    1 ≤ s.step ∧ o.generate.filterMap step? = [s.step] ∧
    o.generate.filterMap direction? =
      List.replicate ((o.generate.filterMap scan?).length + 1) s.traversal.direction ∧
    List.Forall₂ (ScanOf s) (o.elements.filter (·.image?.isSome))
      (o.generate.filterMap scan?) := by
  have hstep : 1 ≤ s.step := h.stepped s (by rw [hs]; rfl)
  rw [scans_generate hs]
  exact ⟨hstep, steps_generate hs, directions_generate hs, forall₂_scans hstep o.elements⟩

theorem scans_as_announced_edited :
    let image : Image := ⟨2, 1, .luma, #[0, 255], #[],
      ⟨by decide, by decide, by decide, nofun, nofun⟩⟩
    let e : Element := ⟨.image image, .identity, .ofList [("overscan", .int (-4)),
      ("raster_direction", .int 2), ("raster_step", .text "3")]⟩
    let o := (((ofElement .raster e).setProperties (.ofList [("raster_step", .int 0)])).push
      e).convert .raster
    let s : RasterSettings := ⟨3, .rightToLeft, false, -4⟩
    o.Reachable ∧ o.kind = .raster s ∧ 1 ≤ s.step ∧ o.generate.filterMap step? = [3] ∧
      o.generate.filterMap direction? = List.replicate 3 s.traversal.direction ∧
      List.Forall₂ (ScanOf s) [e, e] (o.generate.filterMap scan?) := by
  intro image e o s
  have ho : o.Reachable :=
    (((Reachable.ofElement .raster e).setProperties _).push e).convert .raster
  have hs : o.kind = .raster s := by decide +kernel
  obtain ⟨hstep, hsteps, hdirections, hscans⟩ := scans_as_announced ho hs
  have hlength : (o.generate.filterMap scan?).length = 2 := hscans.length_eq.symm
  rw [hlength] at hdirections
  exact ⟨ho, hs, hstep, hsteps, hdirections, hscans⟩

open SettingsUpdate

def stepSet (p : Properties) : Int :=
  (SettingsUpdate.read p).step.getD 1

variable {p : Properties} {e : Element} {n : Int}

theorem stepSet_of_some (h : p.int? "raster_step" = some n) :
    stepSet p = if 1 ≤ n ∧ n < 0x80000000 then n else 1 := by
  have hc : IntRange.int32.contains n ↔ -0x80000000 ≤ n ∧ n < 0x80000000 := IntRange.contains_iff
  simp only [stepSet, SettingsUpdate.read, int32?, h, Option.filter_some, hc]
  by_cases hn : 1 ≤ n ∧ n < 0x80000000
  · rw [if_pos hn, if_pos ⟨by omega, hn.2⟩, Option.filter_some, if_pos (by simpa using hn.1)]
    rfl
  · rw [if_neg hn]
    split
    · rw [Option.filter_some, if_neg (by simp; omega)]
      rfl
    · rfl

theorem estimatedStep_of_none (h : e.values.int? "raster_step" = none) :
    estimatedStep s e = s.step := by
  rw [estimatedStep, h]
  rfl

theorem estimatedStep_of_some (h : e.values.int? "raster_step" = some n) :
    estimatedStep s e = if 1 ≤ n then n else s.step := by
  simp only [estimatedStep, h, Option.filter_some, decide_eq_true_eq]
  split <;> rfl

/-- The settings have no room for a step beyond 32 bits, the estimate has. -/
theorem estimatedStep_eq_step_iff (hs : s.step = stepSet e.values) :
    estimatedStep s e = s.step ↔ ∀ n ∈ e.values.int? "raster_step", n < 0x80000000 := by
  cases hn : e.values.int? "raster_step" with
  | none => simp [estimatedStep_of_none hn]
  | some n =>
    rw [estimatedStep_of_some hn, hs, stepSet_of_some hn]
    simp only [Option.mem_some_iff, forall_eq']
    split <;> split <;> omega

theorem kind_ofElement (e : Element) :
    ∃ s, (ofElement .raster e).kind = .raster s ∧ s.step = stepSet e.values :=
  ⟨_, rfl, rfl⟩

/-- An operation on one image announces one step and makes one scan with it. Its time is estimated
from the area of the image and a step that is the announced one if and only if the step asked for,
if it is an integer at all, is of 32 bits. Otherwise the step asked for is used while one is
announced. -/
theorem estimated_as_announced_iff (i : Image) (t : Transform) (p : Properties) :
    let e : Element := ⟨.image i, t, p⟩
    let o := ofElement .raster e
    ∃ (s : RasterSettings) (scan : Scan), o.kind = .raster s ∧
      o.generate.filterMap step? = [s.step] ∧ o.generate.filterMap scan? = [scan] ∧
      scan.image = i ∧ (scan.step : Int) = s.step ∧
      o.estimateSeconds = estimateParts o.rate
        [Float.ofNat i.width.toNat * Float.ofNat i.height.toNat * Float.ofInt (estimatedStep s e)
          / o.rate] ∧
      (estimatedStep s e = s.step ↔ ∀ n ∈ p.int? "raster_step", n < 0x80000000) ∧
      ∀ n ∈ p.int? "raster_step", 0x80000000 ≤ n → estimatedStep s e = n ∧ s.step = 1 := by
  intro e o
  obtain ⟨s, hkind, hstep⟩ := kind_ofElement e
  have ho : o.Reachable := .ofElement .raster e
  refine ⟨s, scan s e i, hkind, steps_generate hkind, scans_generate hkind, rfl,
    (scanOf_scan (ho.stepped s (by rw [hkind]; rfl)) rfl).step, ?_,
    estimatedStep_eq_step_iff hstep, fun n hn hlarge => ?_⟩
  · have hestimate : o.estimateSeconds = estimateParts o.rate
        (o.elements.filterMap fun e => e.image?.map (scanTime o.rate s e)) := by
      rw [estimateSeconds, hkind]
    exact hestimate
  · have hbound : ¬ (1 ≤ n ∧ n < 0x80000000) := by omega
    rw [estimatedStep_of_some hn, hstep, stepSet_of_some hn, if_pos (by omega), if_neg hbound]
    exact ⟨rfl, rfl⟩

/-- A step of `2 ^ 31` is not announced but estimated with. -/
theorem estimated_not_as_announced :
    let image : Image := ⟨1, 1, .luma, #[0], #[], ⟨by decide, by decide, by decide, nofun, nofun⟩⟩
    let o := ofElement .raster
      ⟨.image image, .identity, .ofList [("raster_step", .int 0x80000000)]⟩
    o.generate.filterMap step? = [1] ∧ (o.generate.filterMap scan?).map (·.step) = [1] ∧
      o.estimateSeconds ≠ estimateParts o.rate
        [Float.ofNat image.width.toNat * Float.ofNat image.height.toNat * Float.ofInt 1
          / o.rate] := by
  intro image o
  refine ⟨?_, ?_, ?_⟩
  · decide +kernel
  · decide +kernel
  · decide +kernel

end Operation
end Engraver
