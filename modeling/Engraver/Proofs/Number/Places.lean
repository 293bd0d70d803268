import Engraver.Proofs.Number.Decimal
import Engraver.Proofs.Number.Scientific

/-! # Fixed decimal places, read back

The text of a double with a fixed number of places is read as the double nearest to the decimal it
shows, and that double has the same text again: it is no further from the decimal than the first
one was, so it is rounded to the same decimal.
-/

namespace Engraver

theorem Numeral.splitSign_of_isDigit {c : Char} {cs : List Char} (h : c.isDigit) :
    splitSign (c :: cs) = (false, c :: cs) := by
  unfold splitSign
  split
  · next heq =>
    rw [(List.cons.inj heq).1] at h
    cases h
  · next heq =>
    rw [(List.cons.inj heq).1] at h
    cases h
  · rfl

theorem Numeral.toList_toString (n : ℤ) : (toString n).toList =
    if 0 ≤ n then Nat.toDigits 10 n.natAbs else '-' :: Nat.toDigits 10 n.natAbs := by
  rw [Int.toString_eq_repr, Int.repr_eq_if]
  split
  · next h =>
    have habs : n.toNat = n.natAbs := by omega
    rw [Nat.toList_repr, habs]
  · next h =>
    have habs : (-n).toNat = n.natAbs := by omega
    rw [String.toList_append, Nat.toList_repr, habs]
    rfl

namespace Fixed

variable {width places n : ℕ}

theorem isDigit_of_mem_padded {c : Char} (hc : c ∈ padded width n) : c.isDigit := by
  rcases List.mem_append.mp hc with hzero | hdigit
  · rw [List.eq_of_mem_replicate hzero]
    rfl
  · exact Nat.isDigit_of_mem_toDigits (by decide) (by decide) hdigit

theorem value_padded : Numeral.value (padded width n) = n := by
  rw [Numeral.value, padded, Nat.ofDigitChars_append, Nat.ofDigitChars_replicate_zero, Nat.mul_zero,
    Nat.ofDigitChars_ten_toDigits]

theorem le_length_padded : width ≤ (padded width n).length := by
  rw [padded, List.length_append, List.length_replicate]
  omega

theorem exists_pointed_eq (places n : ℕ) : ∃ whole fraction,
    pointed places n = whole ++ '.' :: fraction ∧ whole ≠ [] ∧ fraction.length = places ∧
    (∀ c ∈ whole, c.isDigit) ∧ (∀ c ∈ fraction, c.isDigit) ∧
    Numeral.value (whole ++ fraction) = n := by
  set ds := padded (places + 1) n with hds
  have hlength : places + 1 ≤ ds.length := le_length_padded
  refine ⟨ds.take (ds.length - places), ds.drop (ds.length - places), rfl, ?_, ?_, ?_, ?_, ?_⟩
  · rw [ne_eq, List.take_eq_nil_iff]
    rintro (h | h)
    · omega
    · rw [h] at hlength
      simp at hlength
  · rw [List.length_drop]
    omega
  · exact fun c hc => isDigit_of_mem_padded (List.mem_of_mem_take hc)
  · exact fun c hc => isDigit_of_mem_padded (List.mem_of_mem_drop hc)
  · rw [List.take_append_drop, hds, value_padded]

theorem isNumeralChar_of_mem_pointed {c : Char} (hc : c ∈ pointed places n) :
    Numeral.isNumeralChar c := by
  obtain ⟨whole, fraction, hcut, -, -, hw, hf, -⟩ := exists_pointed_eq places n
  rw [hcut, List.mem_append, List.mem_cons] at hc
  rcases hc with hc | rfl | hc
  · simp [Numeral.isNumeralChar, hw c hc]
  · rfl
  · simp [Numeral.isNumeralChar, hf c hc]

def signed (negative : Bool) (ds : List Char) : List Char :=
  if negative then '-' :: ds else ds

theorem splitSign_signed_pointed (negative : Bool) :
    Numeral.splitSign (signed negative (pointed places n)) = (negative, pointed places n) := by
  cases negative with
  | true => rfl
  | false =>
    obtain ⟨whole, fraction, hcut, hne, -, hw, -, -⟩ := exists_pointed_eq places n
    obtain ⟨d, whole, rfl⟩ := List.exists_cons_of_ne_nil hne
    rw [signed, if_neg (by decide), hcut]
    exact Numeral.splitSign_of_isDigit (hw d List.mem_cons_self)

theorem float?_signed_pointed (negative : Bool) :
    Numeral.float? (signed negative (pointed places n)) =
      some (if negative then -Numeral.scientific n (-places)
        else Numeral.scientific n (-places)) := by
  have hchars : ∀ c ∈ signed negative (pointed places n), Numeral.isNumeralChar c := by
    intro c hc
    cases negative with
    | true =>
      rcases List.mem_cons.mp hc with rfl | hc
      · rfl
      · exact isNumeralChar_of_mem_pointed hc
    | false => exact isNumeralChar_of_mem_pointed hc
  obtain ⟨whole, fraction, hcut, hne, hlength, hw, hf, hvalue⟩ := exists_pointed_eq places n
  have hdecimal : Numeral.isDecimal (signed negative (pointed places n)) = true := by
    rw [Numeral.isDecimal, splitSign_signed_pointed, hcut, Numeral.isPointed_point hw hf]
    simp [hne]
  have hpointed : Numeral.pointedValue (pointed places n) = Numeral.scientific n (-places) := by
    rw [hcut, Numeral.pointedValue_point hw hf, hvalue, hlength]
  rw [Numeral.float?_eq_decimal hchars, if_pos hdecimal, Numeral.decimalValue,
    splitSign_signed_pointed]
  dsimp only
  rw [hpointed]

end Fixed

namespace Double

variable {places n m : ℕ} {q : ℤ}

theorem isNegative_neg (s : Float.Model.UnpackedFloat.Sign) : isNegative (-s) = !isNegative s := by
  cases s <;> rfl

theorem ofFloat_neg {x : Float} {negative : Bool} (h : Binary.ofFloat x = .finite negative m q) :
    Binary.ofFloat (-x) = .finite (!negative) m q := by
  have hc := canonical_of_ofFloat h
  have hneg : Binary.ofFloat (-x) = Binary.ofFloat (.ofModel (.pack x.toModel.unpack.neg)) := rfl
  rw [ofFloat_eq_ofUnpacked] at h
  rw [hneg]
  cases hu : x.toModel.unpack <;> rw [hu] at h <;> cases h
  case zero s =>
    rw [← isNegative_neg]
    exact ofFloat_pack_zero (-s)
  case finite s hm =>
    rw [← isNegative_neg]
    exact ofFloat_pack_finite (-s) hm hc

theorem cast_div_twoPow (m : ℕ) (q : ℤ) (places : ℕ) :
    ((m * twoPow q.toNat * tenPow places : ℕ) : ℚ) / (twoPow (-q).toNat : ℕ) =
      m * 2 ^ q * 10 ^ places := by
  have hten : (tenPow places : ℚ) = 10 ^ places := by
    exact_mod_cast rfl
  have htwo (k : ℕ) : (twoPow k : ℚ) = 2 ^ k := by
    exact_mod_cast rfl
  have hpow : (2 : ℚ) ^ q = 2 ^ q.toNat / 2 ^ (-q).toNat := by
    rw [← zpow_natCast, ← zpow_natCast, ← zpow_sub₀ (by norm_num)]
    congr 1
    omega
  push_cast
  rw [hten, htwo, htwo, hpow]
  field_simp

/-- The double nearest to a decimal is rounded to that decimal if any double is. -/
theorem exists_nearestEven_scientific (hc : Canonical m q)
    (hn : NearestEven (m * 2 ^ q * 10 ^ places) n) :
    ∃ k p, Binary.ofFloat (Numeral.scientific n (-places)) = .finite false k p ∧
      NearestEven (k * 2 ^ p * 10 ^ places) n := by
  have hten : (0 : ℚ) < 10 ^ places := by positivity
  set v : ℚ := n * 10 ^ (-(places : ℤ)) with hv
  have hvalue : v * 10 ^ places = n := by
    rw [hv, zpow_neg, zpow_natCast]
    field_simp
  -- distances from the decimal, in units of its last place
  have hdist (u : ℚ) : |u * 10 ^ places - n| = |v - u| * 10 ^ places := by
    rw [← abs_of_pos hten, ← abs_mul, abs_of_pos hten, abs_sub_comm, sub_mul, hvalue]
  rcases Nat.eq_zero_or_pos n with rfl | hpos
  · refine ⟨0, -1074, ofFloat_scientific_zero _, ?_⟩
    rw [Nat.cast_zero, zero_mul, zero_mul]
    exact .natCast 0
  · have hmax : v / 2 ^ (971 : ℤ) < 2 ^ 53 - 1 / 2 := by
      have hnear : |v - m * 2 ^ q| ≤ 1 / 2 := by
        have hone : (1 : ℚ) ≤ 10 ^ places := one_le_pow₀ (by norm_num)
        calc |v - m * 2 ^ q| ≤ |v - m * 2 ^ q| * 10 ^ places :=
              le_mul_of_one_le_right (abs_nonneg _) hone
          _ ≤ 1 / 2 := by rw [← hdist]; exact hn.near
      have hm : (m : ℚ) + 1 ≤ 2 ^ 53 := by exact_mod_cast hc.lt
      have hpow : (2 : ℚ) ^ q ≤ 2 ^ (971 : ℤ) := zpow_le_zpow_right₀ (by norm_num) hc.le
      have hunit : (1 : ℚ) < 2 ^ (971 : ℤ) := one_lt_zpow₀ (by norm_num) (by norm_num)
      have hlargest : (m : ℚ) * 2 ^ q ≤ (2 ^ 53 - 1) * 2 ^ (971 : ℤ) :=
        mul_le_mul (by linarith) hpow (by positivity) (by norm_num)
      rw [div_lt_iff₀ (by positivity)]
      generalize (2 : ℚ) ^ (971 : ℤ) = unit at *
      linarith [(abs_le.mp hnear).2]
    obtain ⟨k, p, -, hread, hnearest⟩ := exists_ofFloat_scientific hpos hv hmax
    refine ⟨k, p, hread, hn.of_abs_sub_le ?_⟩
    rw [hdist, hdist]
    exact mul_le_mul_of_nonneg_right (hnearest m q hc) hten.le

end Double

namespace Fixed

variable {places m : ℕ} {q : ℤ} {negative : Bool} {x : Float}

def units (places m : ℕ) (q : ℤ) : ℕ :=
  roundEven (m * twoPow q.toNat * tenPow places) (twoPow (-q).toNat)

theorem nearestEven_units (places m : ℕ) (q : ℤ) :
    NearestEven (m * 2 ^ q * 10 ^ places) (units places m q) := by
  rw [← Double.cast_div_twoPow]
  exact nearestEven_roundEven _ (twoPow_pos _)

theorem render_of_finite (h : Binary.ofFloat x = .finite negative m q) :
    render places x = String.ofList (signed negative (pointed places (units places m q))) := by
  rw [render, h]
  rfl

/-- A text with fixed places is read as a double that has the same text. -/
theorem exists_float?_render (places : ℕ) (x : Float) :
    ∃ y, Numeral.float? (render places x).toList = some y ∧ render places y = render places x := by
  cases hx : Binary.ofFloat x with
  | nan =>
    have hread : Numeral.float? "NaN".toList = some (0.0 / 0.0) := by decide +kernel
    have hofFloat : Binary.ofFloat (0.0 / 0.0) = .nan := by decide +kernel
    rw [render, hx]
    exact ⟨_, hread, by rw [render, hofFloat]⟩
  | infinite negative =>
    have hread (b : Bool) : Numeral.float? (if b then "-inf" else "inf").toList =
        some (if b then -(1.0 / 0.0) else 1.0 / 0.0) := by
      cases b <;> decide +kernel
    have hofFloat (b : Bool) :
        Binary.ofFloat (if b then -(1.0 / 0.0) else 1.0 / 0.0) = .infinite b := by
      cases b <;> decide +kernel
    rw [render, hx]
    exact ⟨_, hread negative, by rw [render, hofFloat]⟩
  | finite negative m q =>
    obtain ⟨k, p, hread, hnear⟩ := Double.exists_nearestEven_scientific
      (Double.canonical_of_ofFloat hx) (nearestEven_units places m q)
    have hunits : units places k p = units places m q := (nearestEven_units places k p).unique hnear
    rw [render_of_finite hx, String.toList_ofList, float?_signed_pointed]
    refine ⟨_, rfl, ?_⟩
    cases negative with
    | true => rw [if_pos rfl, render_of_finite (Double.ofFloat_neg hread), hunits]; rfl
    | false => rw [if_neg (by decide), render_of_finite hread, hunits]

end Fixed
end Engraver
