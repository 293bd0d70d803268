import Engraver.Job.Operation

/-! # Chains of conversions

A conversion keeps the kind of an operation with its settings if the type stays, and begins with
the defaults of the new type otherwise. So a chain keeps them only if no type in it differs from
the first. Shared settings and elements go through every chain.
-/

namespace Engraver

/-- The settings of a kind are kept by conversions to its own type alone. -/
theorem OperationKind.convert_eq (k : OperationKind) (t : OperationType) :
    k.convert t = if t = k.type then k else .default t := by
  cases k <;> cases t <;> rfl

namespace Operation

def convertAll (o : Operation) (ts : List OperationType) : Operation :=
  ts.foldl (fun o t => o.convert t) o

variable {o : Operation} {ts : List OperationType}

theorem convertAll_cons (o : Operation) (t : OperationType) (ts : List OperationType) :
    o.convertAll (t :: ts) = (o.convert t).convertAll ts :=
  rfl

theorem convertAll_eq_convert (h : ts ≠ []) :
    o.convertAll ts = (o.convertAll ts.dropLast).convert (ts.getLast h) := by
  calc o.convertAll ts = o.convertAll (ts.dropLast ++ [ts.getLast h]) := by
        rw [List.dropLast_concat_getLast h]
    _ = (o.convertAll ts.dropLast).convert (ts.getLast h) := List.foldl_append

theorem type_convert (o : Operation) (t : OperationType) : (o.convert t).type = t :=
  o.kind.type_convert t

theorem settings_convertAll (o : Operation) (ts : List OperationType) :
    (o.convertAll ts).settings = o.settings := by
  induction ts generalizing o with
  | nil => rfl
  | cons t ts ih => rw [convertAll_cons, ih]; rfl

theorem elements_convertAll (o : Operation) (ts : List OperationType) :
    (o.convertAll ts).elements = o.elements := by
  induction ts generalizing o with
  | nil => rfl
  | cons t ts ih => rw [convertAll_cons, ih]; rfl

theorem getLast?_getD_of_forall {t : OperationType} (h : ∀ u ∈ ts, u = t) :
    ts.getLast?.getD t = t := by
  cases hu : ts.getLast? with
  | none => rfl
  | some u => exact h u (List.mem_of_getLast? hu)

/-- A chain keeps the kind if all of its types are that of the operation. Once another type was
passed, what is left of the kind are the defaults of the last type. -/
theorem kind_convertAll (o : Operation) (ts : List OperationType) :
    (o.convertAll ts).kind =
      if ∀ t ∈ ts, t = o.type then o.kind else .default (ts.getLast?.getD o.type) := by
  induction ts generalizing o with
  | nil => simp [convertAll]
  | cons t ts ih =>
    have hkind : (o.convert t).kind = if t = o.type then o.kind else .default t :=
      o.kind.convert_eq t
    rw [convertAll_cons, ih, type_convert, hkind, List.getLast?_cons, Option.getD_some]
    by_cases ht : t = o.type
    · subst ht
      simp
    · have hother : ¬ ∀ u ∈ t :: ts, u = o.type := fun h => ht (h t List.mem_cons_self)
      rw [if_neg ht, if_neg hother]
      split
      · next hall => rw [getLast?_getD_of_forall hall]
      · rfl

theorem status_convertAll (h : ts ≠ []) : (o.convertAll ts).status = queued := by
  rw [convertAll_eq_convert h]
  rfl

theorem type_convertAll (h : ts ≠ []) : (o.convertAll ts).type = ts.getLast h := by
  rw [convertAll_eq_convert h, type_convert]

/-- Only the kind counts for the raster settings, and it is the default one once it was changed. -/
theorem raster?_convertAll (h : ts ≠ []) (hlast : ts.getLast h = .raster) :
    (o.convertAll ts).kind.raster? =
      if o.type = .raster ∧ ∀ t ∈ ts, t = .raster then o.kind.raster? else some .default := by
  rw [kind_convertAll, List.getLast?_eq_some_getLast h, Option.getD_some, hlast]
  by_cases hall : ∀ t ∈ ts, t = o.type
  · have htype : o.type = .raster := (hall _ (List.getLast_mem h)).symm.trans hlast
    rw [if_pos hall, if_pos ⟨htype, fun t ht => (hall t ht).trans htype⟩]
  · have hother : ¬ (o.type = .raster ∧ ∀ t ∈ ts, t = .raster) :=
      fun hr => hall fun t ht => (hr.2 t ht).trans hr.1.symm
    rw [if_neg hall, if_neg hother]
    rfl

/-- The stream of commands depends on the kind, the settings and the elements. -/
theorem generate_congr {p : Operation} (hkind : p.kind = o.kind)
    (hsettings : p.settings = o.settings) (helements : p.elements = o.elements) :
    p.generate = o.generate := by
  simp only [generate, header, body, hkind, hsettings, helements]

/-- Whatever types an operation is converted to in turn, it gets the last of them and keeps the
shared settings and the elements, and it is queued. A raster operation has raster settings of its
own only if it was never of another type, and those of a new one otherwise. A chain through the type
of the operation alone leaves the stream of commands as it was. -/
theorem converted_through (o : Operation) (ts : List OperationType) (h : ts ≠ []) :
    let p := o.convertAll ts
    p.type = ts.getLast h ∧ p.settings = o.settings ∧ p.elements = o.elements ∧
    p.status = "Queued" ∧
    (ts.getLast h = .raster → p.kind.raster? =
      if o.type = .raster ∧ ∀ t ∈ ts, t = .raster then o.kind.raster? else some .default) ∧
    ((∀ t ∈ ts, t = o.type) → p.generate = o.generate) := by
  intro p
  refine ⟨type_convertAll h, settings_convertAll o ts, elements_convertAll o ts,
    status_convertAll h, raster?_convertAll h, fun hall => ?_⟩
  have hkind : p.kind = o.kind := (kind_convertAll o ts).trans (if_pos hall)
  exact generate_congr hkind (settings_convertAll o ts) (elements_convertAll o ts)

theorem converted_through_cut :
    let s : RasterSettings := ⟨3, .rightToLeft, true, 0⟩
    let es : List Element := ["a", "b"].map fun t => ⟨.text t, .identity, ∅⟩
    let o : Operation := ⟨.raster s, .default .cut, es, "Running"⟩
    let kept := o.convertAll [.raster, .raster]
    let renewed := o.convertAll [.raster, .cut, .raster]
    kept.kind.raster? = some s ∧ kept.generate = o.generate ∧ kept.status = "Queued" ∧
      renewed.kind.raster? = some .default ∧ renewed.settings = o.settings ∧
      renewed.elements = es := by
  intro s es o kept renewed
  obtain ⟨-, -, -, hstatus, hkept, hstream⟩ :=
    converted_through o [.raster, .raster] (by decide)
  obtain ⟨-, hsettings, helements, -, hrenewed, -⟩ :=
    converted_through o [.raster, .cut, .raster] (by decide)
  exact ⟨hkept rfl, hstream (by decide), hstatus, hrenewed rfl, hsettings, helements⟩

end Operation
end Engraver
