import Engraver.Number.FloatText
import Engraver.Proofs.Number.Nearest

/-! # The double nearest to a decimal

Both ways in which a decimal is read, by one operation on exact doubles or by one division of whole
numbers, round its value once. So the double depends on the value of the decimal alone, no double
is nearer to it, and it is the one among whose numbers the value lies.
-/

namespace Engraver.Double

open Float.Model Float.Model.UnpackedFloat

theorem unpack_eq {x : Float} {u : UnpackedFloat} (h : Binary.ofFloat x = ofUnpacked u) :
    x.toModel.unpack = u :=
  ofUnpacked_injective ((ofFloat_eq_ofUnpacked x).symm.trans h)

theorem ofUInt64_eq_roundWithAccuracy {n : ℕ} (h0 : 0 < n) (hn : n < 2 ^ 53) :
    UnpackedFloat.ofUInt64 .binary64 n.toUInt64 =
      roundWithAccuracy .binary64 .positive (n <<< (52 - n.log2)) (-((52 - n.log2 : ℕ) : ℤ))
        .exact := by
  have hlog : n.log2 ≤ 52 := Nat.le_of_lt_succ ((Nat.log2_lt h0.ne').mpr hn)
  have htoNat : n.toUInt64.toNat = n := Nat.mod_eq_of_lt (by omega)
  have hcompare : compare (n : ℤ) 0 = .gt := Int.compare_eq_gt.mpr (by omega)
  have hshift : (-Format.binary64.targetExponent (totalExponent n 0)).toNat = 52 - n.log2 := by
    rw [targetExponent_eq, totalExponent]
    omega
  calc UnpackedFloat.ofUInt64 .binary64 n.toUInt64
      = UnpackedFloat.normalize .binary64 (n : ℤ) 0 .positive := by
        rw [UnpackedFloat.ofUInt64, UnpackedFloat.ofNat, UnpackedFloat.ofInt, htoNat]
    _ = UnpackedFloat.round .binary64 .positive n 0 := by
        rw [UnpackedFloat.normalize, hcompare]
        rfl
    _ = _ := by
        simp only [UnpackedFloat.round, decreaseExponent, Int.zero_sub, hshift]

theorem exists_unpack_toFloat {n : ℕ} (h0 : 0 < n) (hn : n < 2 ^ 53) :
    ∃ (m : ℕ) (e : ℤ) (hm : 0 < m), 2 ^ 52 ≤ m ∧ (n : ℚ) = m * 2 ^ e ∧
      n.toUInt64.toFloat.toModel.unpack = .finite .positive m e hm := by
  have hlog : n.log2 ≤ 52 := Nat.le_of_lt_succ ((Nat.log2_lt h0.ne').mpr hn)
  set k := 52 - n.log2 with hk
  have hlow : 2 ^ 52 ≤ n * 2 ^ k := by
    calc 2 ^ 52 = 2 ^ n.log2 * 2 ^ k := by rw [← pow_add]; congr 1; omega
      _ ≤ n * 2 ^ k := Nat.mul_le_mul_right _ (Nat.log2_self_le h0.ne')
  have hhigh : n * 2 ^ k < 2 ^ 53 := by
    calc n * 2 ^ k < 2 ^ (n.log2 + 1) * 2 ^ k :=
          Nat.mul_lt_mul_of_pos_right Nat.lt_log2_self (by positivity)
      _ = 2 ^ 53 := by rw [← pow_add]; congr 1; omega
  have hm : 0 < n * 2 ^ k := by omega
  have hvalue : (n : ℚ) = (n * 2 ^ k : ℕ) * 2 ^ (-(k : ℤ)) := by
    rw [zpow_neg, zpow_natCast]
    push_cast
    field_simp
  have hquot : (n : ℚ) / 2 ^ (-(k : ℤ)) = (n * 2 ^ k : ℕ) := by
    rw [div_eq_iff (by positivity)]
    exact hvalue
  have hnpos : (0 : ℚ) < n := by exact_mod_cast h0
  have hscale : scale n = -k := by
    have hint := log_eq_of_floor h0 hnpos (e := 0) (by simp) (by simp)
    rw [scale, hint]
    omega
  have hnear : NearestEven ((n : ℚ) / 2 ^ scale n) (n * 2 ^ k) := by
    rw [hscale, hquot]
    exact .natCast _
  have hround : UnpackedFloat.ofUInt64 .binary64 n.toUInt64 =
      .finite .positive (n * 2 ^ k) (-k) hm := by
    rw [ofUInt64_eq_roundWithAccuracy h0 hn, ← hk, roundWithAccuracy_eq_settle hnpos
      (by rw [hquot, Nat.shiftLeft_eq]; exact sub_self _) hscale.ge hnear, hscale, settle,
      dif_neg hm.ne', if_pos hhigh]
  refine ⟨n * 2 ^ k, -k, hm, hlow, hvalue, unpack_eq ?_⟩
  calc Binary.ofFloat n.toUInt64.toFloat
      = Binary.ofFloat (.ofModel (.pack (UnpackedFloat.ofUInt64 .binary64 n.toUInt64))) := rfl
    _ = ofUnpacked (.finite .positive (n * 2 ^ k) (-k) hm) := by
      rw [hround]
      exact ofFloat_pack_finite .positive hm ⟨hhigh, by omega, by omega, .inl hlow⟩

theorem exists_unpack_power {e : ℕ} (he : e < Float.exactlyRepresentablePowersOfTen.size) :
    ∃ (m : ℕ) (q : ℤ) (hm : 0 < m), (10 : ℚ) ^ e = m * 2 ^ q ∧
      Float.exactlyRepresentablePowersOfTen[e].toModel.unpack = .finite .positive m q hm := by
  have hbits : ∀ i : Fin 23, Binary.ofFloat Float.exactlyRepresentablePowersOfTen[i] =
      .finite false (10 ^ i.val * 2 ^ 52 / 2 ^ (10 ^ i.val).log2) ((10 ^ i.val).log2 - 52) ∧
      10 ^ i.val * 2 ^ 52 / 2 ^ (10 ^ i.val).log2 * 2 ^ (10 ^ i.val).log2 =
        10 ^ i.val * 2 ^ 52 := by
    decide +kernel
  obtain ⟨hofFloat, hexact⟩ := hbits ⟨e, he⟩
  set m := 10 ^ e * 2 ^ 52 / 2 ^ (10 ^ e).log2
  have hm : 0 < m := by
    apply Nat.pos_of_ne_zero
    intro h0
    rw [h0, Nat.zero_mul] at hexact
    exact absurd hexact.symm (by positivity)
  refine ⟨m, _, hm, ?_, unpack_eq hofFloat⟩
  have hexact' : (m : ℚ) * 2 ^ (10 ^ e).log2 = 10 ^ e * 2 ^ 52 := by exact_mod_cast hexact
  rw [zpow_sub₀ (by norm_num), zpow_natCast]
  have h52 : (2 : ℚ) ^ (52 : ℤ) = 2 ^ 52 := by norm_num
  rw [h52, ← mul_div_assoc, hexact', mul_div_cancel_right₀ _ (by norm_num)]

variable {m n : ℕ} {e : ℤ} {v : ℚ}

theorem settled_of_lt (hm : 0 < m) (he : 2048 < e) (hv : v = m * 10 ^ e) :
    settled n (scale v) = .infinite false := by
  have hm' : (1 : ℚ) ≤ m := by exact_mod_cast hm
  have hvpos : 0 < v := by rw [hv]; positivity
  have hlog : 2049 ≤ Int.log 2 v := by
    rw [← Int.zpow_le_iff_le_log (by norm_num) hvpos, hv]
    calc ((2 : ℕ) : ℚ) ^ (2049 : ℤ) ≤ 10 ^ (2049 : ℤ) := by
          exact zpow_le_zpow_left₀ (by norm_num) (by norm_num) (by norm_num)
      _ ≤ 10 ^ e := zpow_le_zpow_right₀ (by norm_num) (by omega)
      _ ≤ m * 10 ^ e := le_mul_of_one_le_left (by positivity) hm'
  have hscale : 971 < scale v := by
    rw [scale]
    omega
  unfold settled
  simp only [if_neg (show ¬ scale v ≤ 971 by omega), if_neg (show ¬ scale v + 1 ≤ 971 by omega),
    ite_self]

theorem settled_of_tiny (hm : 0 < m) (he : e < -(2048 + m.log2)) (hv : v = m * 10 ^ e)
    (hn : NearestEven (v / 2 ^ scale v) n) : settled n (scale v) = .finite false 0 (-1074) := by
  have hm' : (m : ℚ) < 2 ^ (m.log2 + 1) := by exact_mod_cast Nat.lt_log2_self
  have hvpos : 0 < v := by rw [hv]; positivity
  have hpow : (10 : ℚ) ^ e ≤ 2 ^ (3 * e) := by
    have hinv : (10 : ℚ) ^ e = ((10 : ℚ) ^ (-e))⁻¹ := by rw [zpow_neg, inv_inv]
    have hinv2 : (2 : ℚ) ^ (3 * e) = ((8 : ℚ) ^ (-e))⁻¹ := by
      rw [zpow_neg, inv_inv, zpow_mul]
      norm_num
    rw [hinv, hinv2]
    exact inv_anti₀ (by positivity) (zpow_le_zpow_left₀ (by omega) (by norm_num) (by norm_num))
  have hlt : v < 2 ^ (-1076 : ℤ) := by
    calc v = m * 10 ^ e := hv
      _ < 2 ^ (m.log2 + 1) * 10 ^ e := by gcongr
      _ ≤ 2 ^ (m.log2 + 1) * 2 ^ (3 * e) := by gcongr
      _ = 2 ^ ((m.log2 : ℤ) + 1 + 3 * e) := by
        rw [zpow_add₀ (by norm_num)]
        norm_cast
      _ ≤ 2 ^ (-1076 : ℤ) := zpow_le_zpow_right₀ (by norm_num) (by omega)
  have hlog : Int.log 2 v < -1076 := by
    rw [← Int.lt_zpow_iff_log_lt (by norm_num) hvpos]
    exact_mod_cast hlt
  have hscale : scale v = -1074 := by
    rw [scale]
    omega
  have hquarter : v / 2 ^ scale v < 1 / 4 := by
    rw [hscale, div_lt_iff₀ (by positivity)]
    calc v < 2 ^ (-1076 : ℤ) := hlt
      _ = 2 ^ (-2 : ℤ) * 2 ^ (-1074 : ℤ) := by rw [← zpow_add₀ (by norm_num)]; rfl
      _ = 1 / 4 * 2 ^ (-1074 : ℤ) := by rw [show (2 : ℚ) ^ (-2 : ℤ) = 1 / 4 by norm_num]
  have hzero : n = 0 := by
    refine hn.unique (.of_lt ?_)
    rw [Nat.cast_zero, sub_zero, abs_of_pos (by positivity)]
    linarith
  rw [hscale, hzero]
  rfl

theorem ofFloat_pack_ofScientific (hm : 0 < m) (hv : v = m * 10 ^ e)
    (hn : NearestEven (v / 2 ^ scale v) n) :
    Binary.ofFloat (.ofModel (.pack (UnpackedFloat.ofScientific .binary64 m e))) =
      settled n (scale v) := by
  have hvpos : 0 < v := by rw [hv]; positivity
  unfold UnpackedFloat.ofScientific
  rw [dif_neg hm.ne']
  split
  · next hbig =>
    rw [settled_of_lt hm hbig hv]
    rfl
  · split
    · next htiny =>
      rw [settled_of_tiny hm htiny hv hn]
      rfl
    · split
      · next hpos =>
        have hshift : ((m <<< 53 : ℕ) : ℚ) * 2 ^ (-53 : ℤ) = m := by
          rw [Nat.shiftLeft_eq]
          push_cast
          norm_num
          ring
        have hten : ((10 ^ e.toNat : ℕ) : ℚ) = 10 ^ e := by
          push_cast
          rw [← zpow_natCast, Int.toNat_of_nonneg hpos]
        have hfull : 2 ^ 52 ≤ m <<< 53 * 10 ^ e.toNat := by
          rw [Nat.shiftLeft_eq]
          calc 2 ^ 52 ≤ 1 * 2 ^ 53 * 1 := by norm_num
            _ ≤ m * 2 ^ 53 * 10 ^ e.toNat :=
              Nat.mul_le_mul (Nat.mul_le_mul_right _ hm) (Nat.one_le_pow _ _ (by decide))
        have hvalue : v = ((m <<< 53 : ℕ) : ℚ) * 2 ^ (-53 : ℤ) *
            (((10 ^ e.toNat : ℕ) : ℚ) * 2 ^ (0 : ℤ)) := by
          rw [hshift, hten, hv, zpow_zero, mul_one]
        exact ofFloat_pack_mul _ _ hfull hvalue hn
      · next hneg =>
        have hten : ((10 ^ (-e).toNat : ℕ) : ℚ) = (10 ^ e)⁻¹ := by
          push_cast
          rw [← zpow_natCast, Int.toNat_of_nonneg (by omega), zpow_neg]
        exact ofFloat_pack_div _ _ (by rw [hten, hv]; simp) hn

/-- What `digits * 10 ^ e` is read as: the nearest whole multiple of the unit that doubles of the
size have. -/
theorem ofFloat_scientific (hm : 0 < m) (hv : v = m * 10 ^ e)
    (hn : NearestEven (v / 2 ^ scale v) n) :
    Binary.ofFloat (Numeral.scientific m e) = settled n (scale v) := by
  rw [Numeral.scientific, Float.ofScientific]
  split
  · next h =>
    obtain ⟨m₁, e₁, h₁, hfull, hvalue₁, hunpack₁⟩ := exists_unpack_toFloat hm h.1
    obtain ⟨m₂, e₂, h₂, hvalue₂, hunpack₂⟩ :=
      exists_unpack_power (e := e.natAbs) (by simp [Float.exactlyRepresentablePowersOfTen]; omega)
    by_cases hneg : e < 0
    · have hten : (10 : ℚ) ^ e = (10 ^ e.natAbs)⁻¹ := by
        rw [← zpow_natCast, ← zpow_neg]
        congr 1
        omega
      have hquot := ofFloat_pack_div h₁ h₂
        (by rw [← hvalue₁, ← hvalue₂, hv, hten, div_eq_mul_inv]) hn
      rw [← hunpack₁, ← hunpack₂] at hquot
      simp only [hneg, decide_true, if_true]
      exact hquot
    · have hten : (10 : ℚ) ^ e = 10 ^ e.natAbs := by
        rw [← zpow_natCast]
        congr 1
        omega
      have hprod := ofFloat_pack_mul h₁ h₂ (hfull.trans (Nat.le_mul_of_pos_right _ h₂))
        (by rw [← hvalue₁, ← hvalue₂, hv, hten]) hn
      rw [← hunpack₁, ← hunpack₂] at hprod
      simp only [hneg, decide_false, Bool.false_eq_true, if_false]
      exact hprod
  · have hexp : (if decide (e < 0) = true then Int.negOfNat e.natAbs else Int.ofNat e.natAbs) =
        e := by
      split
      · next hneg =>
        rw [decide_eq_true_iff] at hneg
        rw [Int.negOfNat_eq]
        exact (by omega : -(e.natAbs : ℤ) = e)
      · next hpos =>
        rw [decide_eq_true_iff] at hpos
        exact (by omega : (e.natAbs : ℤ) = e)
    rw [← ofFloat_pack_ofScientific hm hv hn]
    simp only [hexp]
    rfl

theorem ofFloat_scientific_zero (e : ℤ) :
    Binary.ofFloat (Numeral.scientific 0 e) = .finite false 0 (-1074) := by
  have hzero : (0 : ℕ).toUInt64.toFloat.toModel.unpack = .zero .positive :=
    unpack_eq (by decide +kernel)
  refine Eq.trans ?_ (ofFloat_pack_zero .positive)
  rw [Numeral.scientific, Float.ofScientific]
  split
  · next h =>
    obtain ⟨m₂, e₂, h₂, -, hunpack₂⟩ :=
      exists_unpack_power (e := e.natAbs) (by simp [Float.exactlyRepresentablePowersOfTen]; omega)
    dsimp only
    split
    · have hquot : UnpackedFloat.div .binary64 (.zero .positive) (.finite .positive m₂ e₂ h₂) =
        .zero .positive := rfl
      rw [← hzero, ← hunpack₂] at hquot
      exact congrArg (fun u => Binary.ofFloat (.ofModel (.pack u))) (hquot.trans hzero)
    · have hprod : UnpackedFloat.mul .binary64 (.zero .positive) (.finite .positive m₂ e₂ h₂) =
        .zero .positive := rfl
      rw [← hzero, ← hunpack₂] at hprod
      exact congrArg (fun u => Binary.ofFloat (.ofModel (.pack u))) (hprod.trans hzero)
  · have hslow (i : ℤ) : UnpackedFloat.ofScientific .binary64 0 i = .zero .positive := dif_pos rfl
    exact congrArg (fun u => Binary.ofFloat (.ofModel (.pack u))) (hslow _)

theorem scale_eq {q : ℤ} (hv : 0 < v) (hq : -1074 ≤ q) (hhigh : v < 2 ^ 53 * 2 ^ q)
    (hlow : 2 ^ 52 * 2 ^ q ≤ v ∨ q = -1074) : scale v = q := by
  have hpow (k : ℕ) : (2 : ℚ) ^ k * 2 ^ q = ((2 : ℕ) : ℚ) ^ (k + q) := by
    rw [Nat.cast_ofNat, zpow_add₀ (by norm_num), zpow_natCast]
  have hlt : Int.log 2 v < 53 + q := by
    rw [← Int.lt_zpow_iff_log_lt (by norm_num) hv]
    exact (hpow 53) ▸ hhigh
  rw [scale]
  rcases hlow with hlow | rfl
  · have hle : 52 + q ≤ Int.log 2 v := by
      rw [← Int.zpow_le_iff_le_log (by norm_num) hv]
      exact (hpow 52) ▸ hlow
    omega
  · omega

/-- `v` is among the numbers that are rounded to `m * 2 ^ q`. Below a power of two doubles are twice
as dense. -/
structure RoundsTo (v : ℚ) (m : ℕ) (q : ℤ) : Prop where
  low : m - (if Decimal.narrowBelow m q then 1 / 4 else 1 / 2) ≤ v / 2 ^ q
  high : v / 2 ^ q ≤ m + 1 / 2
  odd : ¬ Even m → m - 1 / 2 < v / 2 ^ q ∧ v / 2 ^ q < m + 1 / 2

theorem RoundsTo.pos {q : ℤ} (hm : 0 < m) (h : RoundsTo v m q) : 0 < v := by
  have hm' : (1 : ℚ) ≤ m := by exact_mod_cast hm
  have hlow : (m : ℚ) - 1 / 2 ≤ v / 2 ^ q := by
    refine le_trans ?_ h.low
    split <;> linarith
  have hquot : 0 < v / 2 ^ q := by linarith
  exact (div_pos_iff_of_pos_right (by positivity)).mp hquot

theorem RoundsTo.nearestEven {q : ℤ} (h : RoundsTo v m q) : NearestEven (v / 2 ^ q) m := by
  have hlow : (m : ℚ) - 1 / 2 ≤ v / 2 ^ q := by
    refine le_trans ?_ h.low
    split <;> linarith
  refine ⟨abs_le.mpr ⟨by linarith, by linarith [h.high]⟩, fun hhalf => ?_⟩
  by_contra hodd
  obtain ⟨hlt, hgt⟩ := h.odd hodd
  exact hhalf.not_lt (abs_lt.mpr ⟨by linarith, by linarith⟩)

theorem RoundsTo.nearestEven_double {q : ℤ} (hm : m = 2 ^ 52)
    (hlow : (m : ℚ) - 1 / 4 ≤ v / 2 ^ q) (hlt : v / 2 ^ q < m) :
    NearestEven (v / 2 ^ (q - 1)) (2 ^ 53) := by
  have hdouble : v / 2 ^ (q - 1) = 2 * (v / 2 ^ q) := by
    rw [zpow_sub_one₀ (by norm_num)]
    field_simp
  rw [hm] at hlow hlt
  push_cast at hlow hlt
  refine ⟨?_, fun _ => by decide⟩
  rw [hdouble]
  push_cast
  rw [abs_le]
  constructor <;> linarith

theorem RoundsTo.scale_eq_below {q : ℤ} (hm : 0 < m) (h : RoundsTo v m q)
    (hnarrow : Decimal.narrowBelow m q = true) (hless : v / 2 ^ q < m) : scale v = q - 1 := by
  have hpos : (0 : ℚ) < 2 ^ q := by positivity
  have hlow := h.low
  rw [if_pos hnarrow] at hlow
  simp only [Decimal.narrowBelow, Bool.and_eq_true, beq_iff_eq, decide_eq_true_eq] at hnarrow
  obtain ⟨hm52, hq⟩ := hnarrow
  have hm52 : (m : ℚ) = 2 ^ 52 := by exact_mod_cast hm52
  have hhalf : (2 : ℚ) ^ q = 2 * 2 ^ (q - 1) := by
    rw [zpow_sub_one₀ (by norm_num)]
    ring
  refine scale_eq (h.pos hm) (by omega) ?_ (.inl ?_)
  · rw [div_lt_iff₀ hpos, hm52, hhalf] at hless
    calc v < 2 ^ 52 * (2 * 2 ^ (q - 1)) := hless
      _ = 2 ^ 53 * 2 ^ (q - 1) := by ring
  · rw [le_div_iff₀ hpos, hm52, hhalf] at hlow
    have : (0 : ℚ) < 2 ^ (q - 1) := by positivity
    nlinarith

theorem RoundsTo.scale_eq {q : ℤ} (hm : 0 < m) (hc : Canonical m q) (h : RoundsTo v m q)
    (hbelow : ¬ (Decimal.narrowBelow m q = true ∧ v / 2 ^ q < m)) : scale v = q := by
  have hpos : (0 : ℚ) < 2 ^ q := by positivity
  have hge := hc.ge
  have hlt : (m : ℚ) + 1 ≤ 2 ^ 53 := by exact_mod_cast hc.lt
  have hhigh : v < 2 ^ 53 * 2 ^ q := by
    rw [← div_lt_iff₀ hpos]
    linarith [h.high]
  refine Double.scale_eq (h.pos hm) hge hhigh (or_iff_not_imp_right.mpr fun hq => ?_)
  have hfull := hc.full.resolve_right hq
  rw [← le_div_iff₀ hpos]
  by_cases hnarrow : Decimal.narrowBelow m q = true
  · have hless := not_and.mp hbelow hnarrow
    have hfullQ : (2 : ℚ) ^ 52 ≤ m := by exact_mod_cast hfull
    linarith
  · have hlow := h.low
    rw [if_neg hnarrow] at hlow
    have hne : m ≠ 2 ^ 52 := by
      rintro rfl
      exact hnarrow (by simp [Decimal.narrowBelow]; omega)
    have hmore : (2 : ℚ) ^ 52 + 1 ≤ m := by exact_mod_cast hfull.lt_of_ne' hne
    linarith

/-- A decimal is read as the double to which its value is rounded. -/
theorem ofFloat_scientific_of_roundsTo {d : ℕ} {q : ℤ} (hm : 0 < m) (hc : Canonical m q)
    (hv : v = d * 10 ^ e) (h : RoundsTo v m q) :
    Binary.ofFloat (Numeral.scientific d e) = .finite false m q := by
  have hd : 0 < d := by
    apply Nat.pos_of_ne_zero
    rintro rfl
    have hvpos := h.pos hm
    simp [hv] at hvpos
  have hle := hc.le
  by_cases hbelow : Decimal.narrowBelow m q = true ∧ v / 2 ^ q < m
  · -- the unit below is half as large, and the mantissa there is full
    obtain ⟨hnarrow, hless⟩ := hbelow
    have hscale := h.scale_eq_below hm hnarrow hless
    have hlow := h.low
    rw [if_pos hnarrow] at hlow
    simp only [Decimal.narrowBelow, Bool.and_eq_true, beq_iff_eq] at hnarrow
    have hnear := RoundsTo.nearestEven_double hnarrow.1 hlow hless
    rw [← hscale] at hnear
    rw [ofFloat_scientific hd hv hnear, settled, if_neg (by decide), hscale, if_pos (by omega),
      hnarrow.1]
    congr 1
    omega
  · have hscale := h.scale_eq hm hc hbelow
    have hnear := h.nearestEven
    rw [← hscale] at hnear
    rw [ofFloat_scientific hd hv hnear, settled, if_pos hc.lt, hscale, if_pos hle]

/-- No double is nearer to a number than the nearest whole multiple of its unit. -/
theorem le_abs_sub_canonical (hv : 0 < v)
    (hn : NearestEven (v / 2 ^ scale v) n) {k : ℕ} {p : ℤ} (hk : Canonical k p) :
    |v - n * 2 ^ scale v| ≤ |v - k * 2 ^ p| := by
  have hpos : (0 : ℚ) < 2 ^ scale v := by positivity
  have hunit (j : ℕ) : |v - j * 2 ^ scale v| = |v / 2 ^ scale v - j| * 2 ^ scale v := by
    rw [← abs_of_pos hpos, ← abs_mul, abs_of_pos hpos]
    congr 1
    field_simp
  have hmultiple (j : ℕ) : |v - n * 2 ^ scale v| ≤ |v - j * 2 ^ scale v| := by
    rw [hunit, hunit]
    exact mul_le_mul_of_nonneg_right (hn.le_abs_sub j) hpos.le
  by_cases hp : scale v ≤ p
  · -- the other double is a whole multiple as well
    have hsplit : (k : ℚ) * 2 ^ p = ((k * 2 ^ (p - scale v).toNat : ℕ) : ℚ) * 2 ^ scale v := by
      push_cast
      rw [mul_assoc, ← zpow_natCast, ← zpow_add₀ (by norm_num)]
      congr 2
      omega
    rw [hsplit]
    exact hmultiple _
  · -- the other double is below the least one with this unit
    have hfull := le_scaled hv (by have := hk.ge; omega)
    rw [le_div_iff₀ hpos] at hfull
    have hk53 : (k : ℚ) ≤ 2 ^ 53 := by exact_mod_cast hk.lt.le
    have hbelow : (k : ℚ) * 2 ^ p ≤ (2 ^ 52 : ℕ) * 2 ^ scale v := by
      calc (k : ℚ) * 2 ^ p ≤ 2 ^ 53 * 2 ^ (scale v - 1) := by
            gcongr
            · norm_num
            · omega
        _ = (2 ^ 52 : ℕ) * 2 ^ scale v := by
          rw [zpow_sub_one₀ (by norm_num)]
          push_cast
          ring
    calc |v - n * 2 ^ scale v| ≤ |v - (2 ^ 52 : ℕ) * 2 ^ scale v| := hmultiple _
      _ = v - (2 ^ 52 : ℕ) * 2 ^ scale v := abs_of_nonneg (by linarith)
      _ ≤ v - k * 2 ^ p := by linarith
      _ ≤ |v - k * 2 ^ p| := le_abs_self _

theorem scale_lt_or (hv : 0 < v) (hn : NearestEven (v / 2 ^ scale v) n)
    (hmax : v / 2 ^ (971 : ℤ) < 2 ^ 53 - 1 / 2) :
    scale v < 971 ∨ scale v = 971 ∧ n < 2 ^ 53 := by
  have hpos : (0 : ℚ) < 2 ^ scale v := by positivity
  rcases lt_trichotomy (scale v) 971 with hlt | heq | hgt
  · exact .inl hlt
  · refine .inr ⟨heq, ?_⟩
    by_contra hn53
    have hn53 : (2 ^ 53 : ℚ) ≤ n := by exact_mod_cast Nat.le_of_not_lt hn53
    have hnear := (abs_le.mp hn.near).1
    rw [heq] at hnear
    linarith
  · exfalso
    have hless : v < (2 ^ 53 - 1 / 2) * 2 ^ (971 : ℤ) := (div_lt_iff₀ (by positivity)).mp hmax
    have hlow := le_scaled hv (by omega)
    rw [le_div_iff₀ hpos] at hlow
    have hbig : (2 : ℚ) * 2 ^ (971 : ℤ) ≤ 2 ^ scale v := by
      rw [← zpow_one_add₀ (by norm_num)]
      exact zpow_le_zpow_right₀ (by norm_num) (by omega)
    have hunit : (0 : ℚ) < 2 ^ (971 : ℤ) := by positivity
    push_cast at hlow
    generalize (2 : ℚ) ^ (971 : ℤ) = unit at *
    linarith

/-- A decimal within the range of doubles is read as one that is as near as any other. -/
theorem exists_ofFloat_scientific {d : ℕ} (hd : 0 < d) (hv : v = d * 10 ^ e)
    (hmax : v / 2 ^ (971 : ℤ) < 2 ^ 53 - 1 / 2) :
    ∃ m q, Canonical m q ∧ Binary.ofFloat (Numeral.scientific d e) = .finite false m q ∧
      ∀ k p, Canonical k p → |v - m * 2 ^ q| ≤ |v - k * 2 ^ p| := by
  have hvpos : 0 < v := by
    have : (0 : ℚ) < d := by exact_mod_cast hd
    rw [hv]
    positivity
  obtain ⟨n, hn⟩ := exists_nearestEven (w := v / 2 ^ scale v) (by positivity)
  have hn53 : n ≤ 2 ^ 53 := hn.le_of_le (scaled_lt v).le
  have hmin : -1074 ≤ scale v := le_max_right _ _
  have hfull : 2 ^ 52 ≤ n ∨ scale v = -1074 := by
    by_cases h : scale v = -1074
    · exact .inr h
    · exact .inl (hn.le_of_ge (le_scaled hvpos h))
  have hrange := scale_lt_or hvpos hn hmax
  have hnearest : ∀ k p, Canonical k p → |v - n * 2 ^ scale v| ≤ |v - k * 2 ^ p| :=
    fun k p hk => le_abs_sub_canonical hvpos hn hk
  rw [ofFloat_scientific hd hv hn, settled]
  by_cases hlt : n < 2 ^ 53
  · exact ⟨n, scale v, ⟨hlt, hmin, by omega, hfull⟩, by rw [if_pos hlt, if_pos (by omega)],
      hnearest⟩
  · have hn53 : n = 2 ^ 53 := by omega
    refine ⟨2 ^ 52, scale v + 1, ⟨by decide, by omega, by omega, .inl le_rfl⟩,
      by rw [if_neg hlt, if_pos (by omega)], fun k p hk => ?_⟩
    have hsame : ((2 ^ 52 : ℕ) : ℚ) * 2 ^ (scale v + 1) = n * 2 ^ scale v := by
      rw [hn53, zpow_add₀ (by norm_num)]
      push_cast
      ring
    rw [hsame]
    exact hnearest k p hk

end Engraver.Double
