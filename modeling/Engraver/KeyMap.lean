/-! # Keyed entries in ascending order

A map is the list of its entries by ascending key, each key once. Looking a key up sees the
last value inserted under it.
-/

namespace Engraver

/-- Keys in a strict order, by which any two are compared. -/
class KeyOrder (κ : Type) [LT κ] : Prop where
  lt_asymm {x y : κ} : x < y → ¬ y < x
  lt_trans {x y z : κ} : x < y → y < z → x < z
  eq_of_not_lt {x y : κ} : ¬ x < y → ¬ y < x → x = y

instance : KeyOrder String where
  lt_asymm := String.lt_asymm
  lt_trans := String.lt_trans
  eq_of_not_lt hxy hyx := String.le_antisymm (String.not_lt.mp hyx) (String.not_lt.mp hxy)

instance : KeyOrder Char where
  lt_asymm := Char.lt_asymm
  lt_trans := Char.lt_trans
  eq_of_not_lt hxy hyx := Char.le_antisymm (Char.not_lt.mp hyx) (Char.not_lt.mp hxy)

namespace KeyMap

variable {κ α : Type} [DecidableEq κ]

def find? (k : κ) : List (κ × α) → Option α
  | [] => none
  | (j, a) :: r => if k = j then some a else find? k r

theorem find?_filter_ne (k j : κ) (es : List (κ × α)) :
    find? j (es.filter fun e => e.1 ≠ k) = if j = k then none else find? j es := by
  induction es with
  | nil => simp [find?]
  | cons e r ih =>
    obtain ⟨i, a⟩ := e
    by_cases hi : i = k <;> by_cases hj : j = i <;> simp_all [find?]

variable [LT κ] [DecidableLT κ]

/-- Puts an entry in its place among ascending ones, instead of one under the same key. -/
def insertEntry (k : κ) (a : α) : List (κ × α) → List (κ × α)
  | [] => [(k, a)]
  | (j, b) :: r =>
    if k = j then (k, a) :: r
    else if k < j then (k, a) :: (j, b) :: r
    else (j, b) :: insertEntry k a r

theorem find?_insertEntry (k j : κ) (a : α) (es : List (κ × α)) :
    find? j (insertEntry k a es) = if j = k then some a else find? j es := by
  induction es with
  | nil => simp [insertEntry, find?]
  | cons e r ih =>
    obtain ⟨i, b⟩ := e
    simp only [insertEntry]
    split
    · subst_vars; by_cases hj : j = i <;> simp [find?, hj]
    · split
      · simp [find?]
      · by_cases hj : j = i
        · subst hj; simp_all [find?]; intro h; simp_all
        · simp [find?, hj, ih]

theorem mem_keys_insertEntry {x k : κ} {a : α} {es : List (κ × α)}
    (h : x ∈ (insertEntry k a es).map Prod.fst) : x = k ∨ x ∈ es.map Prod.fst := by
  induction es with
  | nil => simpa [insertEntry] using h
  | cons e es ih =>
    unfold insertEntry at h
    split at h
    · next hk => simpa [hk] using h
    · split at h
      · exact List.mem_cons.mp h
      · rcases List.mem_cons.mp h with rfl | h
        · exact .inr List.mem_cons_self
        · exact (ih h).imp_right (List.mem_cons_of_mem e.1)

theorem pairwise_insertEntry [KeyOrder κ] (k : κ) (a : α) {es : List (κ × α)}
    (h : (es.map Prod.fst).Pairwise (· < ·)) :
    ((insertEntry k a es).map Prod.fst).Pairwise (· < ·) := by
  induction es with
  | nil => exact List.pairwise_singleton _ _
  | cons e es ih =>
    obtain ⟨j, b⟩ := e
    obtain ⟨hj, hes⟩ := List.pairwise_cons.mp h
    unfold insertEntry
    split
    · next hk =>
      subst hk
      exact .cons hj hes
    · next hne =>
      split
      · next hlt =>
        refine .cons (fun x hx => ?_) h
        rcases List.mem_cons.mp hx with rfl | hx
        · exact hlt
        · exact KeyOrder.lt_trans hlt (hj x hx)
      · next hnlt =>
        have hlt : j < k := Decidable.byContradiction fun hn =>
          hne (KeyOrder.eq_of_not_lt hnlt hn)
        refine .cons (fun x hx => ?_) (ih hes)
        rcases mem_keys_insertEntry hx with rfl | hx
        · exact hlt
        · exact hj x hx

end KeyMap

@[ext]
structure KeyMap (κ α : Type) [LT κ] where
  entries : List (κ × α)
  ordered : (entries.map Prod.fst).Pairwise (· < ·)

namespace KeyMap

variable {κ α : Type} [LT κ]

instance : EmptyCollection (KeyMap κ α) := ⟨⟨[], .nil⟩⟩

instance : Inhabited (KeyMap κ α) := ⟨∅⟩

def isEmpty (m : KeyMap κ α) : Bool :=
  m.entries.isEmpty

def keys (m : KeyMap κ α) : List κ :=
  m.entries.map Prod.fst

variable [DecidableEq κ]

def get? (m : KeyMap κ α) (k : κ) : Option α :=
  find? k m.entries

def contains (m : KeyMap κ α) (k : κ) : Bool :=
  (m.get? k).isSome

def erase (m : KeyMap κ α) (k : κ) : KeyMap κ α where
  entries := m.entries.filter fun e => e.1 ≠ k
  ordered := m.ordered.sublist (List.filter_sublist.map _)

@[simp] theorem get?_empty (k : κ) : (∅ : KeyMap κ α).get? k = none := rfl

theorem get?_erase (m : KeyMap κ α) (k j : κ) :
    (m.erase k).get? j = if j = k then none else m.get? j :=
  find?_filter_ne k j m.entries

variable [DecidableLT κ] [KeyOrder κ]

def insert (m : KeyMap κ α) (k : κ) (a : α) : KeyMap κ α where
  entries := insertEntry k a m.entries
  ordered := pairwise_insertEntry k a m.ordered

/-- Inserts the entries in the order given, so the last value of a key stays. -/
def ofList (es : List (κ × α)) : KeyMap κ α :=
  es.foldl (fun m e => m.insert e.1 e.2) ∅

theorem get?_insert (m : KeyMap κ α) (k j : κ) (a : α) :
    (m.insert k a).get? j = if j = k then some a else m.get? j :=
  find?_insertEntry k j a m.entries

theorem get?_foldl_insert (m : KeyMap κ α) (es : List (κ × α)) (k : κ) :
    (es.foldl (fun m e => m.insert e.1 e.2) m).get? k =
      ((es.filter fun e => e.1 = k).getLast?.map (·.2)).or (m.get? k) := by
  induction es generalizing m with
  | nil => rfl
  | cons e es ih =>
    rw [List.foldl_cons, ih, get?_insert, List.filter_cons]
    by_cases he : e.1 = k
    · rw [if_pos he.symm, if_pos (decide_eq_true he), List.getLast?_cons]
      cases (es.filter fun e => e.1 = k).getLast? <;> rfl
    · rw [if_neg (Ne.symm he), if_neg (by simpa using he)]

theorem get?_ofList (es : List (κ × α)) (k : κ) :
    (ofList es).get? k = (es.filter fun e => e.1 = k).getLast?.map (·.2) := by
  rw [ofList, get?_foldl_insert, get?_empty, Option.or_none]

end KeyMap
end Engraver
