import Engraver.Properties
import Engraver.Proofs.Number.Decimal
import Engraver.Proofs.Number.Values

/-! # Numbers read as integers

A number is read as the whole number next to it on the side of zero, if 64 signed bits hold that.
Floats are refused by their distance from zero, though, and so the least of these whole numbers is
refused as a float, while it is read as an integer. What can be read as an integer can be read as a
float too, and a flag says whether it is zero.
-/

namespace Engraver

def Json.Number.value? : Json.Number → Option ℚ
  | .int n => some n
  | .float x => (Binary.ofFloat x).value?

namespace Numeral

variable {cs : List Char} {n : ℤ}

theorem digits_of_int? (h : int? cs = some n) :
    (splitSign cs).2 ≠ [] ∧ ∀ c ∈ (splitSign cs).2, c.isDigit := by
  unfold int? at h
  dsimp only at h
  split at h
  · cases h
  · next hd => simpa using hd

theorem isNumeralChar_of_int? (h : int? cs = some n) : ∀ c ∈ cs, isNumeralChar c := by
  have hdigits : ∀ c ∈ (splitSign cs).2, isNumeralChar c := fun c hc => by
    simp [isNumeralChar, (digits_of_int? h).2 c hc]
  revert hdigits
  unfold splitSign
  split
  · exact fun hr => List.forall_mem_cons.mpr ⟨by decide, hr⟩
  · exact fun hr => List.forall_mem_cons.mpr ⟨by decide, hr⟩
  · exact id

theorem exists_float?_of_int? (h : int? cs = some n) : ∃ x, float? cs = some x := by
  obtain ⟨hne, hdigits⟩ := digits_of_int? h
  have hdecimal : isDecimal cs = true := by
    rw [isDecimal, isPointed_digits hdigits]
    simpa using hne
  exact ⟨decimalValue cs, by rw [float?_eq_decimal (isNumeralChar_of_int? h), if_pos hdecimal]⟩

end Numeral

namespace Properties

variable {p : Properties} {key : String} {v : Json.Value} {n : Json.Number} {i : ℤ}

def leastInt64 : Float := -9223372036854775808.0

/-- The exact reading of a number as an integer: the whole number next to it on the side of zero,
out of range only if 64 signed bits do not hold that. -/
def exactInt (key : String) (n : Json.Number) : Except PropertyError ℤ :=
  match (n.value?.map towardZero).filter IntRange.int64.contains with
  | some i => .ok i
  | none => .error (.outOfRange key (Json.Value.number n).compact)

theorem truncInt64?_eq (b : Binary) :
    truncInt64? b = b.trunc?.filter fun i => i.natAbs < 0x8000000000000000 := by
  cases b with
  | finite negative m q =>
    have habs : (if negative then -(Binary.whole m q : ℤ) else Binary.whole m q).natAbs =
        Binary.whole m q := by
      split <;> simp
    simp [truncInt64?, Binary.trunc?, Option.filter_some, habs]
  | _ => rfl

theorem numberInt?_float (x : Float) :
    numberInt? (.float x) = ((Binary.ofFloat x).value?.map towardZero).filter fun i =>
      i.natAbs < 0x8000000000000000 := by
  rw [numberInt?, truncInt64?_eq, Binary.trunc?_eq]

theorem value?_leastInt64 :
    (Binary.ofFloat leastInt64).value? = some (IntRange.int64.lo : ℚ) := by
  have hread : Binary.ofFloat leastInt64 = .finite true (2 ^ 52) 11 := by decide +kernel
  rw [hread]
  norm_num [Binary.value?, IntRange.int64]

/-- No other double has this whole part, since doubles of its size have no fraction. -/
theorem towardZero_eq_lo_iff {x : Float} {r : ℚ} (hx : (Binary.ofFloat x).value? = some r) :
    towardZero r = IntRange.int64.lo ↔ x = leastInt64 := by
  constructor
  · intro h
    have hr : r = (IntRange.int64.lo : ℚ) := by
      rw [← h]
      exact Double.eq_towardZero hx (by rw [h]; decide)
    exact Double.eq_of_value? (hr ▸ hx) value?_leastInt64 (by norm_num [IntRange.int64])
  · rintro rfl
    obtain rfl := Option.some.inj (hx.symm.trans value?_leastInt64)
    exact towardZero_intCast _

theorem contains_int64_iff (i : ℤ) :
    decide (i.natAbs < 0x8000000000000000) = IntRange.int64.contains i ↔
      i ≠ IntRange.int64.lo := by
  rw [Bool.eq_iff_iff, decide_eq_true_iff, IntRange.contains_iff]
  dsimp only [IntRange.int64]
  omega

theorem filter_some_eq_iff {α : Type} {f g : α → Bool} {a : α} :
    (some a).filter f = (some a).filter g ↔ f a = g a := by
  rw [Option.filter_some, Option.filter_some]
  cases f a <;> cases g a <;> simp

theorem numberInt?_eq_iff :
    numberInt? n = (n.value?.map towardZero).filter IntRange.int64.contains ↔
      n ≠ .float leastInt64 := by
  cases n with
  | int n => simp [numberInt?, Json.Number.value?, Option.filter_some]
  | float x =>
    rw [numberInt?_float, Json.Number.value?, ne_eq, Json.Number.float.injEq]
    cases hx : (Binary.ofFloat x).value? with
    | none =>
      refine iff_of_true rfl ?_
      rintro rfl
      rw [value?_leastInt64] at hx
      cases hx
    | some r =>
      rw [Option.map_some, filter_some_eq_iff, contains_int64_iff, ne_eq,
        towardZero_eq_lo_iff hx]

theorem int_number (h : p.get? key = some (.number n)) :
    p.int key = match numberInt? n with
      | some i => .ok i
      | none => .error (.outOfRange key (Json.Value.number n).compact) := by
  rw [int, require, h]
  rfl

theorem int_eq_exactInt_iff (h : p.get? key = some (.number n)) :
    p.int key = exactInt key n ↔ n ≠ .float leastInt64 := by
  rw [int_number h, exactInt, ← numberInt?_eq_iff]
  cases numberInt? n <;> cases (n.value?.map towardZero).filter IntRange.int64.contains <;> simp

/-- The number that a value is, or is the text of, with one for yes and zero for no. -/
def quantity? : Json.Value → Option ℚ
  | .number n => n.value?
  | .text s => (Numeral.int? (Text.trim s.toList)).map Int.cast
  | .bool b => some (if b then 1 else 0)
  | _ => none

def readInt? : Json.Value → Option ℤ
  | .number n => numberInt? n
  | .text s => Numeral.int64? (Text.trim s.toList)
  | .bool b => some (if b then 1 else 0)
  | _ => none

section

variable (h : p.get? key = some v)
include h

theorem int_eq_ok_iff : p.int key = .ok i ↔ readInt? v = some i := by
  rw [int, require, h]
  cases v with
  | number n => cases hn : numberInt? n <;> simp [readInt?, hn, bind, Except.bind]
  | text s =>
    cases hs : Numeral.int64? (Text.trim s.toList) <;> simp [readInt?, hs, bind, Except.bind]
  | _ => simp [readInt?, bind, Except.bind]

theorem float_eq_ok_iff {x : Float} : p.float key = .ok x ↔ readFloat? v = some x := by
  rw [float, require, h]
  cases hx : readFloat? v <;> simp [hx, bind, Except.bind]

theorem flag_eq_ok_iff {b : Bool} : p.flag key = .ok b ↔ readFlag? v = some b := by
  rw [flag, require, h]
  cases hb : readFlag? v <;> simp [hb, bind, Except.bind]

end

theorem exists_value?_of_numberInt? (h : numberInt? n = some i) :
    ∃ r, n.value? = some r ∧ i = towardZero r ∧ IntRange.int64.contains i := by
  cases n with
  | int n =>
    obtain ⟨hrange, hi⟩ := Option.ite_none_right_eq_some.mp h
    obtain rfl := Option.some.inj hi
    exact ⟨n, rfl, (towardZero_intCast n).symm, hrange⟩
  | float x =>
    rw [numberInt?_float, Option.filter_eq_some_iff, Option.map_eq_some_iff] at h
    obtain ⟨⟨r, hr, rfl⟩, hrange⟩ := h
    refine ⟨r, hr, rfl, ?_⟩
    rw [decide_eq_true_iff] at hrange
    rw [IntRange.contains_iff]
    dsimp only [IntRange.int64]
    omega

theorem flag_number_iff {r : ℚ} (hr : n.value? = some r) (hi : numberInt? n = some i) :
    (n.toFloat != 0.0) = true ↔ r ≠ 0 := by
  have hne {x : Float} {v : ℚ} (hx : (Binary.ofFloat x).value? = some v) :
      (x != 0.0) = true ↔ v ≠ 0 := by
    rw [bne, Bool.not_eq_true', ← Bool.not_eq_true, Double.beq_iff hx Double.value?_zero]
  cases n with
  | int n =>
    obtain rfl := Option.some.inj hr
    obtain ⟨hrange, -⟩ := Option.ite_none_right_eq_some.mp hi
    rw [IntRange.contains_iff] at hrange
    dsimp only [IntRange.int64] at hrange
    obtain ⟨v, hv, hzero⟩ := Double.exists_value?_ofInt (n := n) (by omega)
    rw [Json.Number.toFloat, hne hv, ne_eq, ne_eq, hzero, Int.cast_eq_zero]
  | float x => exact hne hr

theorem flagWord?_iff {s : String} {b : Bool} (hi : Numeral.int? (Text.trim s.toList) = some i)
    (hb : flagWord? s = some b) : b = true ↔ i ≠ 0 := by
  have hlower : Text.lower (Text.trim s.toList) = Text.trim s.toList :=
    Numeral.map_toLower_of_isNumeralChar (Numeral.isNumeralChar_of_int? hi)
  have hword {w : String} (hw : String.ofList (Text.trim s.toList) = w) :
      Numeral.int? w.toList = some i := by
    rw [← hw, String.toList_ofList, hi]
  have hother : ∀ w ∈ ["true", "yes", "on", "false", "no", "off", ""],
      String.ofList (Text.trim s.toList) ≠ w := by
    have hnone : ∀ w ∈ ["true", "yes", "on", "false", "no", "off", ""],
        Numeral.int? w.toList = none := by
      decide
    intro w hw h
    cases (hword h).symm.trans (hnone w hw)
  have hone : Numeral.int? "1".toList = some 1 := by decide
  have hzero : Numeral.int? "0".toList = some 0 := by decide
  unfold flagWord? at hb
  rw [hlower] at hb
  split at hb
  case h_4 _ hw =>
    obtain rfl := Option.some.inj (hone.symm.trans (hword hw))
    cases hb
    decide
  case h_8 _ hw =>
    obtain rfl := Option.some.inj (hzero.symm.trans (hword hw))
    cases hb
    decide
  case h_10 => cases hb
  all_goals exact absurd ‹_› (hother _ (by simp))

/-- An integer that is read is the whole part of the number that the value is, never one brought
into range, and the other readers agree with it. -/
theorem agree_of_readInt? (h : readInt? v = some i) :
    ∃ r, quantity? v = some r ∧ i = towardZero r ∧ IntRange.int64.contains i ∧
      (∃ x, readFloat? v = some x) ∧ ∀ b, readFlag? v = some b → (b = true ↔ r ≠ 0) := by
  cases v with
  | number n =>
    obtain ⟨r, hr, hi, hrange⟩ := exists_value?_of_numberInt? h
    refine ⟨r, hr, hi, hrange, ⟨_, rfl⟩, fun b hb => ?_⟩
    rw [← Option.some.inj hb, flag_number_iff hr h]
  | text s =>
    obtain ⟨hi, hrange⟩ := Option.filter_eq_some_iff.mp h
    obtain ⟨x, hx⟩ := Numeral.exists_float?_of_int? hi
    refine ⟨i, by rw [quantity?, hi]; rfl, (towardZero_intCast i).symm, hrange, ⟨x, hx⟩,
      fun b hb => ?_⟩
    rw [flagWord?_iff hi hb, ne_eq, ne_eq, Int.cast_eq_zero]
  | bool b =>
    obtain rfl := Option.some.inj h
    refine ⟨_, rfl, ?_, ?_, ⟨_, rfl⟩, fun b' hb => ?_⟩
    · cases b <;> simp [towardZero]
    · cases b <;> decide
    · obtain rfl := Option.some.inj hb
      cases b <;> simp
  | _ => cases h

/-- Numbers are read exactly but for the least whole number of 64 signed bits, which is refused as
a float. What can be read as an integer, be it a number, a text or a boolean, is read as the whole
number next to it on the side of zero; it is read as a float too, and its flag says whether it is
zero. -/
theorem int_exact_iff (p : Properties) (key : String) :
    (∀ n, p.get? key = some (.number n) →
      (p.int key = exactInt key n ↔ n ≠ .float leastInt64)) ∧
    ∀ v i, p.get? key = some v → p.int key = .ok i →
      ∃ r, quantity? v = some r ∧ i = towardZero r ∧ IntRange.int64.contains i ∧
        (∃ x, p.float key = .ok x) ∧ ∀ b, p.flag key = .ok b → (b = true ↔ r ≠ 0) := by
  refine ⟨fun n h => int_eq_exactInt_iff h, fun v i h hi => ?_⟩
  simp only [float_eq_ok_iff h, flag_eq_ok_iff h]
  exact agree_of_readInt? ((int_eq_ok_iff h).mp hi)

theorem int_exact_iff_fraction :
    let p : Properties := .ofList [("a", .number (.float 3.9)), ("b", .text " +7 ")]
    p.int "a" = exactInt "a" (.float 3.9) ∧
      ∃ r, quantity? (.text " +7 ") = some r ∧ 7 = towardZero r ∧ IntRange.int64.contains 7 ∧
        (∃ x, p.float "b" = .ok x) ∧ ∀ b, p.flag "b" = .ok b → (b = true ↔ r ≠ 0) := by
  intro p
  have hne : Json.Number.float 3.9 ≠ .float leastInt64 := fun h =>
    absurd (congrArg Binary.ofFloat (Json.Number.float.inj h)) (by decide +kernel)
  have hb : p.int "b" = .ok 7 := (int_eq_ok_iff rfl).mpr (by decide)
  exact ⟨((int_exact_iff p "a").1 _ rfl).mpr hne, (int_exact_iff p "b").2 _ 7 rfl hb⟩

/-- As a float the least whole number of 64 signed bits is out of range, as an integer it is not. -/
theorem int_least_refused :
    let least : Json.Number := .float (-9223372036854775808.0)
    let p : Properties :=
      .ofList [("f", .number least), ("i", .number (.int (-9223372036854775808)))]
    p.int "f" = .error (.outOfRange "f" (Json.Value.number least).compact) ∧
      exactInt "f" least = .ok (-9223372036854775808) ∧ p.int "i" = .ok (-9223372036854775808) := by
  intro least p
  have hvalue : (Binary.ofFloat (-9223372036854775808.0)).value? = some (IntRange.int64.lo : ℚ) :=
    value?_leastInt64
  have hstored : p.get? "i" = some (.number (.int (-9223372036854775808))) :=
    KeyMap.get?_ofList _ "i"
  refine ⟨?_, ?_, (int_eq_ok_iff hstored).mpr (by decide)⟩
  · have hread : numberInt? least = none := by
      rw [numberInt?_float, hvalue, Option.map_some, towardZero_intCast]
      rfl
    rw [int_number (KeyMap.get?_ofList _ "f"), hread]
  · rw [exactInt, Json.Number.value?, hvalue, Option.map_some, towardZero_intCast]
    rfl

end Properties
end Engraver
