import Engraver.Number.Numeral
import Mathlib.Data.List.TakeDrop
import Mathlib.Data.List.TakeWhile

/-! # Decimals

A text of digits, signs and points is read as a float exactly when it is a decimal: an optional
sign and digits with at most one point. The value is that of the digits without the point, moved
by as many places as stand behind it.
-/

namespace Engraver.Numeral

def isNumeralChar (c : Char) : Bool :=
  c.isDigit || c = '+' || c = '-' || c = '.'

/-- Digits with at most one point, and at least one digit. -/
def isPointed (ds : List Char) : Bool :=
  ds.all (fun c => c.isDigit || c = '.') && ds.count '.' ≤ 1 && ds.any Char.isDigit

def pointedValue (ds : List Char) : Float :=
  scientific (value (ds.filter (· ≠ '.'))) (-((ds.dropWhile (· ≠ '.')).tail.length : Int))

/-- An optional sign in front of digits with at most one point. -/
def isDecimal (cs : List Char) : Bool :=
  isPointed (splitSign cs).2

def decimalValue (cs : List Char) : Float :=
  let (negative, ds) := splitSign cs
  if negative then -pointedValue ds else pointedValue ds

theorem exists_digits (cs : List Char) :
    ∃ ds r, cs = ds ++ r ∧ spanDigits cs = (ds, r) ∧ (∀ c ∈ ds, c.isDigit) ∧
      ∀ c ∈ r.head?, ¬ c.isDigit := by
  refine ⟨cs.takeWhile Char.isDigit, cs.dropWhile Char.isDigit,
    List.takeWhile_append_dropWhile.symm, List.span_eq_takeWhile_dropWhile .., ?_, ?_⟩
  · exact List.all_eq_true.mp List.all_takeWhile
  · intro c hc
    have hd := List.head?_dropWhile_not Char.isDigit cs
    rw [Option.mem_def.mp hc] at hd
    simpa using hd

theorem ne_point_of_isDigit {c : Char} (h : c.isDigit) : c ≠ '.' := by
  rintro rfl
  cases h

theorem filter_ne_point_of_digits {ds : List Char} (h : ∀ c ∈ ds, c.isDigit) :
    ds.filter (· ≠ '.') = ds :=
  List.filter_eq_self.mpr fun c hc => decide_eq_true (ne_point_of_isDigit (h c hc))

theorem count_point_of_digits {ds : List Char} (h : ∀ c ∈ ds, c.isDigit) : ds.count '.' = 0 :=
  List.count_eq_zero.mpr fun hc => ne_point_of_isDigit (h _ hc) rfl

theorem any_isDigit_of_digits {ds : List Char} (h : ∀ c ∈ ds, c.isDigit) :
    ds.any Char.isDigit = !ds.isEmpty := by
  cases ds with
  | nil => rfl
  | cons c ds => simp [h c List.mem_cons_self]

theorem isPointed_digits {ds : List Char} (h : ∀ c ∈ ds, c.isDigit) :
    isPointed ds = !ds.isEmpty := by
  have hall : ds.all (fun c => c.isDigit || c = '.') = true :=
    List.all_eq_true.mpr fun c hc => by simp [h c hc]
  rw [isPointed, hall, count_point_of_digits h, any_isDigit_of_digits h]
  rfl

theorem pointedValue_digits {ds : List Char} (h : ∀ c ∈ ds, c.isDigit) :
    pointedValue ds = scientific (value ds) 0 := by
  have hdrop : ds.dropWhile (· ≠ '.') = [] :=
    List.dropWhile_eq_nil_iff.mpr fun c hc => decide_eq_true (ne_point_of_isDigit (h c hc))
  rw [pointedValue, filter_ne_point_of_digits h, hdrop]
  rfl

variable {whole fraction : List Char}

theorem isPointed_point (hw : ∀ c ∈ whole, c.isDigit) (hf : ∀ c ∈ fraction, c.isDigit) :
    isPointed (whole ++ '.' :: fraction) = !(whole.isEmpty && fraction.isEmpty) := by
  have hall : (whole ++ '.' :: fraction).all (fun c => c.isDigit || c = '.') = true := by
    simp only [List.all_append, List.all_cons, Bool.and_eq_true, List.all_eq_true]
    exact ⟨fun c hc => by simp [hw c hc], by decide, fun c hc => by simp [hf c hc]⟩
  have hcount : (whole ++ '.' :: fraction).count '.' = 1 := by
    rw [List.count_append, List.count_cons, count_point_of_digits hw, count_point_of_digits hf]
    rfl
  have hany : (whole ++ '.' :: fraction).any Char.isDigit =
      !(whole.isEmpty && fraction.isEmpty) := by
    rw [List.any_append, List.any_cons, any_isDigit_of_digits hw, any_isDigit_of_digits hf,
      Bool.not_and]
    rfl
  rw [isPointed, hall, hcount, hany]
  rfl

theorem pointedValue_point (hw : ∀ c ∈ whole, c.isDigit) (hf : ∀ c ∈ fraction, c.isDigit) :
    pointedValue (whole ++ '.' :: fraction) =
      scientific (value (whole ++ fraction)) (-(fraction.length : Int)) := by
  have hdrop : (whole ++ '.' :: fraction).dropWhile (· ≠ '.') = '.' :: fraction := by
    rw [List.dropWhile_append_of_pos
      fun c hc => decide_eq_true (ne_point_of_isDigit (hw c hc))]
    rfl
  rw [pointedValue, hdrop, List.filter_append, List.filter_cons, filter_ne_point_of_digits hw,
    filter_ne_point_of_digits hf]
  rfl

theorem isPointed_eq_false_of_mem {ds : List Char} {c : Char} (hc : c ∈ ds) (hd : ¬ c.isDigit)
    (hp : c ≠ '.') : isPointed ds = false := by
  have hall : ds.all (fun c => c.isDigit || c = '.') = false :=
    List.all_eq_false.mpr ⟨c, hc, by simp [hd, hp]⟩
  rw [isPointed, hall]
  rfl

theorem isPointed_eq_false_of_points {ds : List Char} (h : 1 < ds.count '.') :
    isPointed ds = false := by
  rw [isPointed, decide_eq_false (Nat.not_le_of_lt h), Bool.and_false]
  rfl

def mantissaParts (whole fraction r : List Char) : Option (List Char × List Char × List Char) :=
  if whole.isEmpty && fraction.isEmpty then none else some (whole, fraction, r)

theorem mantissa?_digits {cs r : List Char} (h : spanDigits cs = (whole, r))
    (hr : ∀ s, r ≠ '.' :: s) : mantissa? cs = mantissaParts whole [] r := by
  unfold mantissa?
  rw [h]
  dsimp only
  split
  · next s => exact absurd rfl (hr s)
  · rfl

theorem mantissa?_point {cs s r : List Char} (h : spanDigits cs = (whole, '.' :: s))
    (hs : spanDigits s = (fraction, r)) : mantissa? cs = mantissaParts whole fraction r := by
  simp only [mantissa?, h, hs, mantissaParts]

theorem exponent?_eq_none {c : Char} (h : isNumeralChar c) (r : List Char) :
    exponent? (c :: r) = none := by
  have he : ¬ (c = 'e' || c = 'E') = true := by
    rw [Bool.or_eq_true, decide_eq_true_iff, decide_eq_true_iff]
    rintro (rfl | rfl) <;> cases h
  exact if_neg he

theorem magnitude?_eq_none_of_exponent {cs r : List Char}
    (h : mantissa? cs = mantissaParts whole fraction r) (hr : exponent? r = none) :
    magnitude? cs = none := by
  unfold magnitude?
  rw [h, mantissaParts]
  split
  · rfl
  · simp [hr]

theorem magnitude?_eq_of_mantissa {cs : List Char}
    (h : mantissa? cs = mantissaParts whole fraction []) :
    magnitude? cs = if !(whole.isEmpty && fraction.isEmpty)
      then some (scientific (value (whole ++ fraction)) (-(fraction.length : Int))) else none := by
  unfold magnitude?
  rw [h, mantissaParts]
  split
  · next he => rw [he]; rfl
  · next he => simp [he, exponent?]

/-- Digits, signs and points are an unsigned float exactly when they are digits with at most one
point. -/
theorem magnitude?_eq_pointed {ds : List Char} (h : ∀ c ∈ ds, isNumeralChar c) :
    magnitude? ds = if isPointed ds then some (pointedValue ds) else none := by
  obtain ⟨whole, r, rfl, hspan, hw, hr⟩ := exists_digits ds
  cases r with
  | nil =>
    have hm := mantissa?_digits hspan (fun s hs => nomatch hs)
    rw [List.append_nil] at hm ⊢
    rw [magnitude?_eq_of_mantissa hm, isPointed_digits hw, pointedValue_digits hw,
      List.append_nil, List.isEmpty_nil, Bool.and_true]
    rfl
  | cons c r =>
    have hc : isNumeralChar c := h c (by simp)
    have hdigit : ¬ c.isDigit := hr c rfl
    by_cases hp : c = '.'
    · subst hp
      obtain ⟨fraction, r, rfl, hspan', hf, hr'⟩ := exists_digits r
      have hm := mantissa?_point hspan hspan'
      cases r with
      | nil =>
        rw [List.append_nil] at hm ⊢
        rw [magnitude?_eq_of_mantissa hm, isPointed_point hw hf, pointedValue_point hw hf]
      | cons d r =>
        have hd : isNumeralChar d := h d (by simp)
        rw [magnitude?_eq_none_of_exponent hm (exponent?_eq_none hd r)]
        by_cases hp' : d = '.'
        · subst hp'
          have hcount : 1 < (whole ++ '.' :: (fraction ++ '.' :: r)).count '.' := by
            simp only [List.count_append, List.count_cons_self]
            omega
          rw [isPointed_eq_false_of_points hcount]
          rfl
        · rw [isPointed_eq_false_of_mem (c := d) (by simp) (hr' d rfl) hp']
          rfl
    · have hm := mantissa?_digits hspan (fun s hs => hp (List.cons.inj hs).1)
      rw [magnitude?_eq_none_of_exponent hm (exponent?_eq_none hc r),
        isPointed_eq_false_of_mem (List.mem_append_right _ List.mem_cons_self) hdigit hp]
      rfl

theorem val_le_of_isNumeralChar {c : Char} (h : isNumeralChar c) : c.val ≤ '9'.val := by
  simp only [isNumeralChar, Char.isDigit, Bool.or_eq_true, Bool.and_eq_true,
    decide_eq_true_eq] at h
  rcases h with ((h | rfl) | rfl) | rfl
  · exact h.2
  all_goals decide

theorem toLower_of_isNumeralChar {c : Char} (h : isNumeralChar c) : c.toLower = c :=
  dif_neg fun hu => absurd (UInt32.le_trans hu.1 (val_le_of_isNumeralChar h)) (by decide)

theorem map_toLower_of_isNumeralChar {cs : List Char} (h : ∀ c ∈ cs, isNumeralChar c) :
    cs.map Char.toLower = cs := by
  conv_rhs => rw [← List.map_id cs]
  exact List.map_congr_left fun c hc => toLower_of_isNumeralChar (h c hc)

theorem word?_eq_none {cs : List Char} (h : ∀ c ∈ cs, isNumeralChar c) : word? cs = none := by
  have hword : ∀ w : String, (∃ c ∈ w.toList, ¬ isNumeralChar c) → String.ofList cs ≠ w := by
    rintro w ⟨c, hc, hn⟩ rfl
    exact hn (h c (by simpa using hc))
  unfold word?
  rw [map_toLower_of_isNumeralChar h]
  have hinf := hword "inf" ⟨'i', by decide, by decide⟩
  have hinfinity := hword "infinity" ⟨'i', by decide, by decide⟩
  have hnan := hword "nan" ⟨'n', by decide, by decide⟩
  simp [hinf, hinfinity, hnan]

theorem float?_eq_decimal {cs : List Char} (h : ∀ c ∈ cs, isNumeralChar c) :
    float? cs = if isDecimal cs then some (decimalValue cs) else none := by
  have hs : ∀ c ∈ (splitSign cs).2, isNumeralChar c := by
    unfold splitSign
    split
    · exact fun c hc => h c (List.mem_cons_of_mem _ hc)
    · exact fun c hc => h c (List.mem_cons_of_mem _ hc)
    · exact h
  unfold float? isDecimal decimalValue
  dsimp only
  rw [word?_eq_none hs, Option.none_or, magnitude?_eq_pointed hs]
  cases isPointed (splitSign cs).2 <;> cases (splitSign cs).1 <;> rfl

end Engraver.Numeral
