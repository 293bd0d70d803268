import Mathlib.Data.List.Nodup
import Engraver.KeyMap

/-! # Entries and their order

A map has each key once. So an entry is found wherever it stands, and entries with different keys
may be inserted in any order.
-/

namespace Engraver.KeyMap

variable {κ α : Type}

section Finding

variable [DecidableEq κ] {k : κ} {a : α} {es fs : List (κ × α)}

theorem mem_of_find? (h : find? k es = some a) : (k, a) ∈ es := by
  induction es with
  | nil => cases h
  | cons e es ih =>
    rw [find?] at h
    split at h
    · next hk =>
      obtain rfl := Option.some.inj h
      rw [hk]
      exact List.mem_cons_self
    · exact List.mem_cons_of_mem e (ih h)

theorem find?_eq_none_iff : find? k es = none ↔ k ∉ es.map Prod.fst := by
  induction es with
  | nil => simp [find?]
  | cons e es ih => by_cases hk : k = e.1 <;> simp [find?, hk, ih]

theorem find?_eq_some_iff (hk : (es.map Prod.fst).Nodup) : find? k es = some a ↔ (k, a) ∈ es := by
  refine ⟨mem_of_find?, fun ha => ?_⟩
  cases hf : find? k es with
  | none => exact absurd (List.mem_map_of_mem ha) (find?_eq_none_iff.mp hf)
  | some b =>
    obtain ⟨-, rfl⟩ := Prod.mk.inj (List.inj_on_of_nodup_map hk (mem_of_find? hf) ha rfl)
    rfl

theorem find?_perm (hp : es.Perm fs) (hk : (es.map Prod.fst).Nodup) : find? k es = find? k fs := by
  have hk' : (fs.map Prod.fst).Nodup := (hp.map Prod.fst).nodup_iff.mp hk
  exact Option.ext fun a => by rw [find?_eq_some_iff hk, find?_eq_some_iff hk', hp.mem_iff]

end Finding

theorem nodup_keys [LT κ] [KeyOrder κ] (m : KeyMap κ α) : (m.entries.map Prod.fst).Nodup := by
  refine m.ordered.imp ?_
  rintro x _ hlt rfl
  exact KeyOrder.lt_asymm hlt hlt

section Inserting

variable [DecidableEq κ] [LT κ] [DecidableLT κ] [KeyOrder κ]

theorem get?_ofList_singleton (e : κ × α) (k : κ) :
    (ofList [e]).get? k = if k = e.1 then some e.2 else none :=
  get?_insert ∅ e.1 k e.2

theorem get?_ofList_of_nodup {es : List (κ × α)} (hk : (es.map Prod.fst).Nodup) (k : κ) :
    (ofList es).get? k = find? k es := by
  rw [get?_ofList]
  induction es with
  | nil => rfl
  | cons e es ih =>
    obtain ⟨he, hes⟩ := List.nodup_cons.mp hk
    rw [List.filter_cons, find?]
    by_cases h : k = e.1
    · subst h
      have hrest : (es.filter fun e' => e'.1 = e.1) = [] := by
        refine List.filter_eq_nil_iff.mpr fun e' he' hc => he ?_
        rw [← of_decide_eq_true hc]
        exact List.mem_map_of_mem he'
      simp [hrest]
    · rw [if_neg h, if_neg (by simpa using Ne.symm h), ih hes]

theorem insertEntry_comm {k j : κ} (h : k ≠ j) (a b : α) (es : List (κ × α)) :
    insertEntry k a (insertEntry j b es) = insertEntry j b (insertEntry k a es) := by
  have htri : ∀ x y : κ, x < y ∨ x = y ∨ y < x := by
    intro x y
    by_contra hc
    push Not at hc
    exact hc.2.1 (KeyOrder.eq_of_not_lt hc.1 hc.2.2)
  have hasymm : ∀ x y : κ, x < y → ¬ y < x := fun _ _ => KeyOrder.lt_asymm
  have htrans : ∀ x y z : κ, x < y → y < z → x < z := fun _ _ _ => KeyOrder.lt_trans
  induction es with
  | nil => grind [insertEntry]
  | cons e es ih => grind [insertEntry]

/-- Entries with different keys may be inserted in any order. -/
theorem ofList_perm {es fs : List (κ × α)} (hp : es.Perm fs) (hk : (es.map Prod.fst).Nodup) :
    (ofList es : KeyMap κ α) = ofList fs := by
  refine hp.foldl_eq' (fun x hx y hy m => ?_) ∅
  by_cases h : x.1 = y.1
  · rw [List.inj_on_of_nodup_map hk hx hy h]
  · exact KeyMap.ext (insertEntry_comm (Ne.symm h) ..)

end Inserting

end Engraver.KeyMap
