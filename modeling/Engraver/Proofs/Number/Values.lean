import Engraver.Proofs.Number.Places

/-! # The value of a double

A finite double stands for a rational number. The whole part of the double is that of the number,
doubles are in the order of their numbers, and the number determines the double but for the sign of
zero. A product with one is exact.
-/

namespace Engraver

/-- The whole number next to `v` on the side of zero. -/
def towardZero (v : ℚ) : ℤ :=
  if 0 ≤ v then ⌊v⌋ else ⌈v⌉

theorem towardZero_of_nonneg {v : ℚ} (h : 0 ≤ v) : towardZero v = ⌊v⌋ :=
  if_pos h

theorem towardZero_of_nonpos {v : ℚ} (h : v ≤ 0) : towardZero v = ⌈v⌉ := by
  unfold towardZero
  split
  · next hpos =>
    obtain rfl : v = 0 := le_antisymm h hpos
    simp
  · rfl

theorem toNat_towardZero (v : ℚ) : (towardZero v).toNat = ⌊v⌋₊ := by
  rcases le_total 0 v with h | h
  · rw [towardZero_of_nonneg h, Int.floor_toNat]
  · rw [towardZero_of_nonpos h, Nat.floor_of_nonpos h]
    exact Int.toNat_of_nonpos (Int.ceil_le.mpr (by simpa using h))

@[simp] theorem towardZero_intCast (n : ℤ) : towardZero n = n := by
  simp [towardZero]

namespace Binary

def value? : Binary → Option ℚ
  | finite negative m q => some (if negative then -(m * 2 ^ q) else m * 2 ^ q)
  | _ => none

theorem whole_eq_floor (m : ℕ) (q : ℤ) : (whole m q : ℤ) = ⌊(m * 2 ^ q : ℚ)⌋ := by
  have hquot := Double.cast_div_twoPow m q 0
  rw [tenPow_zero, Nat.mul_one, pow_zero, mul_one] at hquot
  rw [whole, ← hquot, ← Nat.floor_div_eq_div (K := ℚ), Int.natCast_floor_eq_floor (by positivity)]

theorem trunc?_eq (b : Binary) : b.trunc? = b.value?.map towardZero := by
  cases b with
  | finite negative m q =>
    have hpos : (0 : ℚ) ≤ m * 2 ^ q := by positivity
    cases negative with
    | true =>
      have hneg := towardZero_of_nonpos (neg_nonpos.mpr hpos)
      simp [trunc?, value?, whole_eq_floor, hneg, Int.ceil_neg]
    | false => simp [trunc?, value?, whole_eq_floor, towardZero_of_nonneg hpos]
  | _ => rfl

theorem saturate_eq {b : Binary} {v : ℚ} (h : b.value? = some v) (r : IntRange) :
    b.saturate r = max r.lo (min (r.hi - 1) (towardZero v)) := by
  have htrunc := b.trunc?_eq
  rw [h, Option.map_some] at htrunc
  cases b with
  | finite negative m q => rw [← Option.some.inj htrunc, saturate]
  | _ => cases h

end Binary

namespace Double

open Float.Model Float.Model.UnpackedFloat

variable {x y : Float} {v w : ℚ}

theorem value?_ofUnpacked (u : UnpackedFloat) : (ofUnpacked u).value?.isSome = u.isFinite := by
  cases u <;> rfl

theorem isSome_value? (x : Float) : (Binary.ofFloat x).value?.isSome = x.isFinite := by
  rw [ofFloat_eq_ofUnpacked, value?_ofUnpacked]
  rfl

theorem Canonical.lt_of_lt {m n : ℕ} {p q : ℤ} (hm : Canonical m p) (hn : Canonical n q)
    (h : p < q) : (m : ℚ) * 2 ^ p < n * 2 ^ q := by
  have hlt : (m : ℚ) < 2 ^ 53 := by exact_mod_cast hm.lt
  have hfull : (2 : ℚ) ^ 52 ≤ n := by
    have hq := hm.ge
    exact_mod_cast hn.full.resolve_right (by omega)
  calc (m : ℚ) * 2 ^ p < 2 ^ 53 * 2 ^ p := by gcongr
    _ ≤ 2 ^ 53 * 2 ^ (q - 1) := by
      gcongr
      · norm_num
      · omega
    _ = 2 ^ 52 * 2 ^ q := by
      rw [zpow_sub_one₀ (by norm_num)]
      ring
    _ ≤ n * 2 ^ q := by gcongr

/-- Exponents are compared first, since mantissas are full unless the exponents are least. -/
theorem compare_canonical {m n : ℕ} {p q : ℤ} (hm : Canonical m p) (hn : Canonical n q) :
    (compare p q).then (compare m n) = compare ((m : ℚ) * 2 ^ p) (n * 2 ^ q) := by
  rcases lt_trichotomy p q with hlt | rfl | hgt
  · rw [compare_lt_iff_lt.mpr hlt, compare_lt_iff_lt.mpr (hm.lt_of_lt hn hlt)]
    rfl
  · have hpos : (0 : ℚ) < 2 ^ p := by positivity
    rw [compare_eq_iff_eq.mpr rfl, Ordering.eq_then]
    rcases lt_trichotomy m n with hlt | rfl | hgt
    · have hlt' : (m : ℚ) * 2 ^ p < n * 2 ^ p := by gcongr
      rw [compare_lt_iff_lt.mpr hlt, compare_lt_iff_lt.mpr hlt']
    · rw [compare_eq_iff_eq.mpr rfl, compare_eq_iff_eq.mpr rfl]
    · have hgt' : (n : ℚ) * 2 ^ p < m * 2 ^ p := by gcongr
      rw [compare_gt_iff_gt.mpr hgt, compare_gt_iff_gt.mpr hgt']
  · rw [compare_gt_iff_gt.mpr hgt, compare_gt_iff_gt.mpr (hn.lt_of_lt hm hgt)]
    rfl

theorem compare_neg (a b : ℚ) : compare (-a) (-b) = (compare a b).swap := by
  rcases lt_trichotomy a b with hlt | rfl | hgt
  · rw [compare_lt_iff_lt.mpr hlt, compare_gt_iff_gt.mpr (neg_lt_neg hlt)]
    rfl
  · rw [compare_eq_iff_eq.mpr rfl, compare_eq_iff_eq.mpr rfl]
    rfl
  · rw [compare_gt_iff_gt.mpr hgt, compare_lt_iff_lt.mpr (neg_lt_neg hgt)]
    rfl

theorem compare_ofUnpacked {u u' : UnpackedFloat}
    (hu : ∀ b m q, ofUnpacked u = .finite b m q → Canonical m q)
    (hu' : ∀ b m q, ofUnpacked u' = .finite b m q → Canonical m q)
    (h : (ofUnpacked u).value? = some v) (h' : (ofUnpacked u').value? = some w) :
    u.compare u' = some (compare v w) := by
  cases u <;> cases u' <;> cases h <;> cases h'
  case zero.zero s s' => cases s <;> cases s' <;> simp [isNegative, UnpackedFloat.compare]
  case zero.finite s s' m q hm =>
    have hpos : (0 : ℚ) < m * 2 ^ q := by positivity
    cases s' with
    | positive => simp [isNegative, UnpackedFloat.compare, compare_lt_iff_lt.mpr hpos]
    | negative =>
      simp [isNegative, UnpackedFloat.compare, compare_gt_iff_gt.mpr (neg_lt_zero.mpr hpos)]
  case finite.zero s m q hm s' =>
    have hpos : (0 : ℚ) < m * 2 ^ q := by positivity
    cases s with
    | positive => simp [isNegative, UnpackedFloat.compare, compare_gt_iff_gt.mpr hpos]
    | negative =>
      simp [isNegative, UnpackedFloat.compare, compare_lt_iff_lt.mpr (neg_lt_zero.mpr hpos)]
  case finite.finite s m q hm s' m' q' hm' =>
    have hcanonical := compare_canonical (hu _ m q rfl) (hu' _ m' q' rfl)
    have hpos : (0 : ℚ) < m * 2 ^ q := by positivity
    have hpos' : (0 : ℚ) < m' * 2 ^ q' := by positivity
    cases s <;> cases s' <;> simp only [isNegative, UnpackedFloat.compare, if_true, if_false,
      Bool.false_eq_true, Option.some.injEq]
    case positive.positive => exact hcanonical
    case positive.negative => exact (compare_gt_iff_gt.mpr (by linarith)).symm
    case negative.positive => exact (compare_lt_iff_lt.mpr (by linarith)).symm
    case negative.negative => rw [compare_neg, hcanonical]

section

variable (hx : (Binary.ofFloat x).value? = some v) (hy : (Binary.ofFloat y).value? = some w)
include hx hy

theorem compare_unpack : x.toModel.unpack.compare y.toModel.unpack = some (compare v w) := by
  rw [ofFloat_eq_ofUnpacked] at hx hy
  refine compare_ofUnpacked (fun b m q h => ?_) (fun b m q h => ?_) hx hy
  · exact canonical_of_ofFloat ((ofFloat_eq_ofUnpacked x).trans h)
  · exact canonical_of_ofFloat ((ofFloat_eq_ofUnpacked y).trans h)

/-- Finite doubles are in the order of their values. -/
theorem le_iff : x ≤ y ↔ v ≤ w := by
  have hle : x ≤ y ↔ (x.toModel.unpack.compare y.toModel.unpack).any (·.isLE) = true :=
    decide_eq_true_iff
  rw [hle, compare_unpack hx hy, Option.any_some]
  exact Ordering.ne_gt_iff_isLE.symm.trans compare_le_iff_le

theorem beq_iff : x == y ↔ v = w := by
  have hbeq : (x == y) = (x.toModel.unpack.compare y.toModel.unpack == some .eq) := rfl
  rw [hbeq, compare_unpack hx hy, beq_iff_eq, Option.some.injEq, compare_eq_iff_eq]

end

theorem value?_zero : (Binary.ofFloat 0.0).value? = some 0 := by
  have hzero : Binary.ofFloat 0.0 = .finite false 0 (-1074) := by decide
  rw [hzero]
  simp [Binary.value?]

/-- Doubles that stand for the same number are the same, but for the sign of zero. -/
theorem eq_of_value? (hx : (Binary.ofFloat x).value? = some v)
    (hy : (Binary.ofFloat y).value? = some v) (hv : v ≠ 0) : x = y := by
  obtain ⟨-, -, h | ⟨rfl, rfl⟩ | ⟨rfl, rfl⟩⟩ :=
    Float.beq_iff_ne_nan_and_eq.mp ((beq_iff hx hy).mpr rfl)
  · exact h
  · exact absurd (Option.some.inj (hx.symm.trans value?_zero)) hv
  · exact absurd (Option.some.inj (hy.symm.trans value?_zero)) hv

theorem eq_towardZero (hx : (Binary.ofFloat x).value? = some v)
    (hv : 2 ^ 53 ≤ (towardZero v).natAbs) : v = towardZero v := by
  have htrunc := Binary.trunc?_eq (Binary.ofFloat x)
  cases hb : Binary.ofFloat x with
  | finite negative m q =>
    rw [hb] at hx htrunc
    rw [hx, Option.map_some] at htrunc
    have hwhole : (towardZero v).natAbs = Binary.whole m q := by
      rw [← Option.some.inj htrunc]
      split <;> simp
    have hq : 0 ≤ q := by
      by_contra hneg
      have hle : Binary.whole m q ≤ m := by
        rw [Binary.whole, Int.toNat_of_nonpos (by omega), twoPow_zero, Nat.mul_one]
        exact Nat.div_le_self ..
      have hlt := (canonical_of_ofFloat hb).lt
      omega
    have hvalue : v = ((if negative then -(m * 2 ^ q.toNat) else m * 2 ^ q.toNat : ℤ) : ℚ) := by
      obtain ⟨k, rfl⟩ := Int.eq_ofNat_of_zero_le hq
      rw [← Option.some.inj hx]
      push_cast
      rfl
    rw [hvalue, towardZero_intCast]
  | _ => rw [hb] at hx; cases hx

theorem exists_ofFloat_ofNat {n : ℕ} (h0 : 0 < n) (hn : n < 2 ^ 64) :
    ∃ m q, 0 < m ∧ Binary.ofFloat (Float.ofNat n) = .finite false m q := by
  have hpos : (0 : ℚ) < n := by exact_mod_cast h0
  have hlow : 0 ≤ Int.log 2 (n : ℚ) := by
    rw [← Int.zpow_le_iff_le_log (by norm_num) hpos, zpow_zero]
    exact_mod_cast h0
  have hhigh : Int.log 2 (n : ℚ) < 64 := by
    rw [← Int.lt_zpow_iff_log_lt (by norm_num) hpos]
    exact_mod_cast hn
  have hscale : scale n ≠ -1074 ∧ scale n < 970 := by
    unfold scale
    omega
  obtain ⟨k, hk⟩ := exists_nearestEven (w := n / 2 ^ scale n) (by positivity)
  have hfull : 2 ^ 52 ≤ k := hk.le_of_ge (le_scaled hpos hscale.1)
  have hread : Binary.ofFloat (Float.ofNat n) = settled k (scale n) :=
    ofFloat_scientific (e := 0) h0 (by simp) hk
  rw [hread, settled, if_pos (show scale (n : ℚ) ≤ 971 by omega),
    if_pos (show scale (n : ℚ) + 1 ≤ 971 by omega)]
  split
  · exact ⟨k, scale n, by omega, rfl⟩
  · exact ⟨2 ^ 52, scale n + 1, by decide, rfl⟩

theorem exists_value?_ofInt {n : ℤ} (hn : n.natAbs < 2 ^ 64) :
    ∃ v, (Binary.ofFloat (Float.ofInt n)).value? = some v ∧ (v = 0 ↔ n = 0) := by
  have hne {m : ℕ} {q : ℤ} (hm : 0 < m) : (m * 2 ^ q : ℚ) ≠ 0 := by positivity
  cases n with
  | ofNat n =>
    rcases Nat.eq_zero_or_pos n with rfl | h0
    · exact ⟨0, value?_zero, by simp⟩
    · obtain ⟨m, q, hm, hread⟩ := exists_ofFloat_ofNat h0 hn
      have hn0 : Int.ofNat n ≠ 0 := by simpa using h0.ne'
      exact ⟨m * 2 ^ q, congrArg Binary.value? hread, by simp only [hne hm, hn0]⟩
  | negSucc n =>
    obtain ⟨m, q, hm, hread⟩ := exists_ofFloat_ofNat (Nat.succ_pos n) hn
    have hneg : (Binary.ofFloat (Float.ofInt (.negSucc n))).value? = some (-(m * 2 ^ q) : ℚ) :=
      congrArg Binary.value? (ofFloat_neg hread)
    exact ⟨-(m * 2 ^ q), hneg, by simp only [neg_eq_zero, hne hm, Int.negSucc_ne_zero]⟩

theorem unpack_one :
    (1.0 : Float).toModel.unpack = .finite .positive (2 ^ 52) (-52) (by decide) :=
  unpack_eq (by decide)

theorem scale_of_canonical {m : ℕ} {q : ℤ} (hm : 0 < m) (h : Canonical m q) :
    scale (m * 2 ^ q) = q := by
  have hlt : (m : ℚ) < 2 ^ 53 := by exact_mod_cast h.lt
  refine scale_eq (by positivity) h.ge (by gcongr) (h.full.imp (fun hfull => ?_) id)
  have hfull : (2 : ℚ) ^ 52 ≤ m := by exact_mod_cast hfull
  gcongr

theorem mul_one_finite {s : Sign} {m : ℕ} {q : ℤ} (hm : 0 < m) (h : Canonical m q) :
    UnpackedFloat.mul .binary64 (.finite s m q hm) (.finite .positive (2 ^ 52) (-52) (by decide)) =
      .finite s m q hm := by
  have hpos : (0 : ℚ) < m * 2 ^ q := by positivity
  have hscale := scale_of_canonical hm h
  have hquot : (m * 2 ^ q : ℚ) / 2 ^ (q + -52) = (m * 2 ^ 52 : ℕ) := by
    rw [div_eq_iff (by positivity), zpow_add₀ (by norm_num)]
    push_cast
    norm_num
    ring
  have hnear : NearestEven ((m * 2 ^ q : ℚ) / 2 ^ scale (m * 2 ^ q)) m := by
    rw [hscale, mul_div_cancel_right₀ _ (by positivity)]
    exact .natCast m
  have hround := roundWithAccuracy_eq_settle (s := s) (a := .exact) hpos
    (by rw [hquot]; exact sub_self _) (by rw [hscale]; omega) hnear
  rw [hscale, settle, dif_neg hm.ne', if_pos h.lt] at hround
  have hsign : s * .positive = s := by cases s <;> rfl
  calc UnpackedFloat.mul .binary64 (.finite s m q hm) (.finite .positive (2 ^ 52) (-52) _)
      = roundWithAccuracy .binary64 (s * .positive) (m * 2 ^ 52) (q + -52) .exact := rfl
    _ = .finite s m q hm := by rw [hsign, hround]

/-- The exact product has the mantissa of the double, so nothing is rounded. -/
theorem mul_one (x : Float) : x * 1.0 = x := by
  have hmul : UnpackedFloat.mul .binary64 x.toModel.unpack (1.0 : Float).toModel.unpack =
      x.toModel.unpack := by
    rw [unpack_one]
    cases hu : x.toModel.unpack with
    | notANumber => rfl
    | infinity s => cases s <;> rfl
    | zero s => cases s <;> rfl
    | finite s m q hm =>
      have hread : Binary.ofFloat x = .finite (isNegative s) m q := by
        rw [ofFloat_eq_ofUnpacked, hu]
        rfl
      exact mul_one_finite hm (canonical_of_ofFloat hread)
  calc x * 1.0
      = Float.ofModel (.pack (UnpackedFloat.mul .binary64 x.toModel.unpack
          (1.0 : Float).toModel.unpack)) := rfl
    _ = Float.ofModel (.pack x.toModel.unpack) := by rw [hmul]
    _ = x := pack_unpack_toModel x

end Double
end Engraver
