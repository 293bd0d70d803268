import Engraver.Proofs.Number.Bits
import Engraver.Proofs.Number.Rounding
import Engraver.Number.Numeral

/-! # Rounding to the format of doubles

Operations on doubles compute a mantissa, an exponent and how far the exact result is beyond them,
and round that to the format. The rounded mantissa is the nearest whole multiple of one unit, which
depends on the exact result alone.
-/

namespace Engraver.Double

open Float.Model Float.Model.UnpackedFloat

/-- The exponent that doubles next to a positive number have. -/
def scale (v : ℚ) : ℤ :=
  max (Int.log 2 v - 52) (-1074)

/-- What the bits behind a mantissa say about the fraction that they stand for. -/
def Tells : Accuracy → ℚ → Prop
  | .exact, f => f = 0
  | .inexact .lt, f => 0 < f ∧ f < 1 / 2
  | .inexact .eq, f => f = 1 / 2
  | .inexact .gt, f => 1 / 2 < f ∧ f < 1

theorem Tells.bounds {a : Accuracy} {f : ℚ} (h : Tells a f) : 0 ≤ f ∧ f < 1 := by
  rcases a with _ | o
  · rw [Tells] at h
    subst h
    norm_num
  · cases o
    case lt => exact ⟨h.1.le, h.2.trans (by norm_num)⟩
    case eq =>
      rw [Tells] at h
      subst h
      norm_num
    case gt => exact ⟨by linarith [h.1], h.2⟩

theorem Tells.nearestEven {a : Accuracy} {m : ℕ} {w : ℚ} (h : Tells a (w - m)) :
    NearestEven w (a.roundToNearestEven m) := by
  rcases a with _ | o
  · apply NearestEven.of_lt
    rw [Tells] at h
    simp [Accuracy.roundToNearestEven, h]
  · cases o
    case lt =>
      apply NearestEven.of_lt
      simp only [Accuracy.roundToNearestEven]
      rw [abs_of_pos h.1]
      exact h.2
    case eq =>
      rw [Tells] at h
      simp only [Accuracy.roundToNearestEven]
      rcases Nat.mod_two_eq_zero_or_one m with hm | hm
      · exact ⟨by rw [hm, add_zero, h]; norm_num, fun _ => by
          rw [hm, add_zero]; exact Nat.even_iff.mpr hm⟩
      · have hw : w - ((m + 1 : ℕ) : ℚ) = - (1 / 2) := by push_cast; linarith
        exact ⟨by rw [hm, hw]; norm_num, fun _ => by rw [hm]; exact Nat.even_iff.mpr (by omega)⟩
    case gt =>
      apply NearestEven.of_lt
      simp only [Accuracy.roundToNearestEven]
      obtain ⟨h1, h2⟩ := h
      push_cast
      rw [abs_lt]
      constructor <;> linarith

def Holds (em : ExtendedMantissa) (w : ℚ) : Prop :=
  Tells em.accuracy (w - em.mantissa)

theorem holds_ofMantissaAndAccuracy {a : Accuracy} {m : ℕ} {w : ℚ} (h : Tells a (w - m)) :
    Holds (.ofMantissaAndAccuracy m a) w := by
  rcases a with _ | o
  · exact h
  · cases o <;> exact h

theorem halve (m : ℕ) :
    ((m % 2 != 0) = false ∧ ((m / 2 : ℕ) : ℚ) = m / 2) ∨
      ((m % 2 != 0) = true ∧ ((m / 2 : ℕ) : ℚ) = (m - 1) / 2) := by
  have hm : ((2 * (m / 2) + m % 2 : ℕ) : ℚ) = m := by rw [Nat.div_add_mod]
  push_cast at hm
  rcases Nat.mod_two_eq_zero_or_one m with h | h
  · rw [h] at hm ⊢
    exact .inl ⟨rfl, by push_cast at hm ⊢; linarith⟩
  · rw [h] at hm ⊢
    exact .inr ⟨rfl, by push_cast at hm ⊢; linarith⟩

theorem Holds.shiftRightOne {em : ExtendedMantissa} {w : ℚ} (h : Holds em w) :
    Holds em.shiftRightOne (w / 2) := by
  obtain ⟨m, r, s⟩ := em
  rcases halve m with ⟨hbit, hm⟩ | ⟨hbit, hm⟩ <;> cases r <;> cases s <;>
    simp only [Holds, Tells, ExtendedMantissa.accuracy, ExtendedMantissa.shiftRightOne, hm,
      hbit, Bool.or_false, Bool.or_true] at h ⊢ <;> norm_num at h ⊢ <;>
    first | linarith | constructor <;> linarith

theorem Holds.shiftRight {em : ExtendedMantissa} {w : ℚ} (h : Holds em w) (k : ℕ) :
    Holds (em >>> k) (w / 2 ^ k) := by
  change Holds (k.repeat ExtendedMantissa.shiftRightOne em) _
  induction k with
  | zero => simpa [Nat.repeat] using h
  | succ k ih =>
    have hstep := ih.shiftRightOne
    rwa [div_div, ← pow_succ] at hstep

theorem targetExponent_eq (t : ℤ) : Format.binary64.targetExponent t = max (t - 53) (-1074) :=
  rfl

variable {a : Accuracy} {m : ℕ} {e : ℤ} {v : ℚ}

theorem log_eq_of_floor (hm : 0 < m) (hv : 0 < v) (hlow : m ≤ v / 2 ^ e)
    (hhigh : v / 2 ^ e < m + 1) : Int.log 2 v = m.log2 + e := by
  have hpos : (0 : ℚ) < 2 ^ e := zpow_pos (by norm_num) e
  apply le_antisymm
  · rw [← Int.lt_add_one_iff, ← Int.lt_zpow_iff_log_lt (by norm_num) hv]
    have hlt : (m : ℚ) + 1 ≤ 2 ^ (m.log2 + 1) := by
      exact_mod_cast Nat.lt_log2_self
    calc v < (m + 1) * 2 ^ e := (div_lt_iff₀ hpos).mp hhigh
      _ ≤ 2 ^ (m.log2 + 1) * 2 ^ e := by gcongr
      _ = ((2 : ℕ) : ℚ) ^ ((m.log2 : ℤ) + e + 1) := by
        rw [← zpow_natCast, ← zpow_add₀ (by norm_num)]
        push_cast
        congr 1
        ring
  · rw [← Int.zpow_le_iff_le_log (by norm_num) hv]
    have hle : (2 : ℚ) ^ m.log2 ≤ m := by exact_mod_cast Nat.log2_self_le hm.ne'
    calc ((2 : ℕ) : ℚ) ^ ((m.log2 : ℤ) + e) = 2 ^ m.log2 * 2 ^ e := by
          rw [← zpow_natCast, ← zpow_add₀ (by norm_num)]
          norm_cast
      _ ≤ m * 2 ^ e := by gcongr
      _ ≤ v := (le_div_iff₀ hpos).mp hlow

/-- The exponent aimed at is that of the number a mantissa stands for, as soon as the mantissa is
fine enough. -/
theorem targetExponent_totalExponent (hv : 0 < v) (h : Tells a (v / 2 ^ e - m)) (he : e ≤ scale v) :
    Format.binary64.targetExponent (totalExponent m e) = scale v := by
  have hlow : (m : ℚ) ≤ v / 2 ^ e := by linarith [h.bounds.1]
  have hhigh : v / 2 ^ e < m + 1 := by linarith [h.bounds.2]
  rw [targetExponent_eq, totalExponent]
  rcases Nat.eq_zero_or_pos m with rfl | hm
  · have hlt : v < 2 ^ e := by
      rw [← div_lt_one (zpow_pos (by norm_num) e)]
      simpa using hhigh
    have hlog : Int.log 2 v < e := by
      rw [← Int.lt_zpow_iff_log_lt (by norm_num) hv]
      exact_mod_cast hlt
    rw [scale] at he ⊢
    simp
    omega
  · rw [scale, log_eq_of_floor hm hv hlow hhigh]
    congr 1
    ring

theorem scaled_lt (v : ℚ) : v / 2 ^ scale v < ((2 ^ 53 : ℕ) : ℚ) := by
  rw [div_lt_iff₀ (zpow_pos (by norm_num) _)]
  calc v < ((2 : ℕ) : ℚ) ^ (Int.log 2 v + 1) := Int.lt_zpow_succ_log_self (by norm_num) v
    _ ≤ ((2 : ℕ) : ℚ) ^ (53 + scale v) := by
      apply zpow_le_zpow_right₀ (by norm_num)
      rw [scale]
      omega
    _ = ((2 ^ 53 : ℕ) : ℚ) * 2 ^ scale v := by
      rw [zpow_add₀ (by norm_num)]
      norm_num

theorem le_scaled (hv : 0 < v) (h : scale v ≠ -1074) : ((2 ^ 52 : ℕ) : ℚ) ≤ v / 2 ^ scale v := by
  rw [le_div_iff₀ (zpow_pos (by norm_num) _)]
  calc ((2 ^ 52 : ℕ) : ℚ) * 2 ^ scale v = ((2 : ℕ) : ℚ) ^ (52 + scale v) := by
        rw [zpow_add₀ (by norm_num)]
        norm_num
    _ = ((2 : ℕ) : ℚ) ^ Int.log 2 v := by
      congr 1
      rw [scale] at h ⊢
      omega
    _ ≤ v := Int.zpow_log_le_self (by norm_num) hv

def settle (s : Sign) (n : ℕ) (t : ℤ) : UnpackedFloat :=
  if h : n = 0 then .zero s
  else if n < 2 ^ 53 then .finite s n t (Nat.pos_of_ne_zero h)
  else .finite s (2 ^ 52) (t + 1) (by decide)

theorem shiftToTargetExponent_of_lt {n : ℕ} {t : ℤ} (hn : n < 2 ^ 53) (ht : -1074 ≤ t) :
    shiftToTargetExponent .binary64 n t .exact = (.ofMantissaAndAccuracy n .exact, t) := by
  have hlog : n.log2 ≤ 52 := by
    rcases Nat.eq_zero_or_pos n with rfl | hpos
    · simp
    · exact Nat.le_of_lt_succ ((Nat.log2_lt hpos.ne').mpr hn)
  have hshift : (Format.binary64.targetExponent (totalExponent n t) - t).toNat = 0 := by
    rw [targetExponent_eq, totalExponent]
    omega
  unfold shiftToTargetExponent shiftToExponent
  simp only [hshift]
  exact Prod.ext rfl (by simp)

theorem shiftToTargetExponent_full {t : ℤ} (ht : -1074 ≤ t) :
    shiftToTargetExponent .binary64 (2 ^ 53) t .exact =
      (.ofMantissaAndAccuracy (2 ^ 52) .exact, t + 1) := by
  have hshift : (Format.binary64.targetExponent (totalExponent (2 ^ 53) t) - t).toNat = 1 := by
    rw [targetExponent_eq, totalExponent, Nat.log2_two_pow]
    omega
  unfold shiftToTargetExponent shiftToExponent
  simp only [hshift]
  exact Prod.ext rfl (by simp)

/-- Rounding a mantissa with the bits behind it gives the nearest whole multiple of the unit that
doubles of the size have. -/
theorem roundWithAccuracy_eq_settle {s : Sign} (hv : 0 < v) (h : Tells a (v / 2 ^ e - m))
    (he : e ≤ scale v) {n : ℕ} (hn : NearestEven (v / 2 ^ scale v) n) :
    roundWithAccuracy .binary64 s m e a = settle s n (scale v) := by
  set k := (scale v - e).toNat with hk
  have hshift : shiftToTargetExponent .binary64 m e a =
      (ExtendedMantissa.ofMantissaAndAccuracy m a >>> k, scale v) := by
    unfold shiftToTargetExponent shiftToExponent
    rw [targetExponent_totalExponent hv h he]
    exact Prod.ext rfl (by simp only []; omega)
  have hround : (ExtendedMantissa.ofMantissaAndAccuracy m a >>> k).roundedMantissa = n := by
    refine NearestEven.unique ?_ hn
    have hholds := ((holds_ofMantissaAndAccuracy h).shiftRight k)
    have hscale : v / 2 ^ e / 2 ^ k = v / 2 ^ scale v := by
      rw [div_div, ← zpow_natCast, ← zpow_add₀ (by norm_num)]
      congr 2
      omega
    rw [hscale] at hholds
    exact hholds.nearestEven
  have hle : n ≤ 2 ^ 53 := hn.le_of_le (scaled_lt v).le
  have hmin : -1074 ≤ scale v := le_max_right _ _
  unfold roundWithAccuracy
  rw [hshift]
  rcases hle.lt_or_eq with hlt | rfl
  · simp only [hround, shiftToTargetExponent_of_lt hlt hmin, settle, hlt, if_true]
    rfl
  · simp only [hround, shiftToTargetExponent_full hmin]
    rfl

def settled (n : ℕ) (t : ℤ) : Binary :=
  if n < 2 ^ 53 then
    if t ≤ 971 then .finite false n t else .infinite false
  else if t + 1 ≤ 971 then .finite false (2 ^ 52) (t + 1) else .infinite false

theorem ofFloat_pack_settle {n : ℕ} {t : ℤ} (hn : n ≤ 2 ^ 53) (ht : -1074 ≤ t)
    (hfull : 2 ^ 52 ≤ n ∨ t = -1074) :
    Binary.ofFloat (.ofModel (.pack (settle .positive n t))) = settled n t := by
  unfold settle settled
  by_cases h0 : n = 0
  · have ht0 : t = -1074 := hfull.resolve_left (by omega)
    subst h0 ht0
    exact ofFloat_pack_zero .positive
  · rw [dif_neg h0]
    by_cases hlt : n < 2 ^ 53
    · rw [if_pos hlt, if_pos hlt]
      split
      · next hle => exact ofFloat_pack_finite .positive _ ⟨hlt, ht, hle, hfull⟩
      · next hgt => exact ofFloat_pack_of_lt .positive _ (by omega)
    · rw [if_neg hlt, if_neg hlt]
      split
      · next hle =>
        exact ofFloat_pack_finite .positive _ ⟨by decide, by omega, hle, .inl le_rfl⟩
      · next hgt => exact ofFloat_pack_of_lt .positive _ (by omega)

theorem ofFloat_pack_settle_scale {n : ℕ} (hv : 0 < v) (hn : NearestEven (v / 2 ^ scale v) n) :
    Binary.ofFloat (.ofModel (.pack (settle .positive n (scale v)))) = settled n (scale v) := by
  refine ofFloat_pack_settle (hn.le_of_le (scaled_lt v).le) (le_max_right _ _) ?_
  by_cases h : scale v = -1074
  · exact .inr h
  · exact .inl (hn.le_of_ge (le_scaled hv h))

theorem ofFloat_pack_mul {m₁ m₂ : ℕ} {e₁ e₂ : ℤ} (h₁ : 0 < m₁) (h₂ : 0 < m₂)
    (hfull : 2 ^ 52 ≤ m₁ * m₂) (hv : v = m₁ * 2 ^ e₁ * (m₂ * 2 ^ e₂)) {n : ℕ}
    (hn : NearestEven (v / 2 ^ scale v) n) :
    Binary.ofFloat (.ofModel (.pack (UnpackedFloat.mul .binary64 (.finite .positive m₁ e₁ h₁)
      (.finite .positive m₂ e₂ h₂)))) = settled n (scale v) := by
  have hpos : (0 : ℚ) < 2 ^ (e₁ + e₂) := zpow_pos (by norm_num) _
  have hquot : v / 2 ^ (e₁ + e₂) = (m₁ * m₂ : ℕ) := by
    rw [div_eq_iff hpos.ne', hv, zpow_add₀ (by norm_num)]
    push_cast
    ring
  have hvpos : 0 < v := by
    rw [(div_eq_iff hpos.ne').mp hquot]
    have := Nat.mul_pos h₁ h₂
    positivity
  have hlog := log_eq_of_floor (Nat.mul_pos h₁ h₂) hvpos hquot.ge (by rw [hquot]; linarith)
  have hbits : 52 ≤ (m₁ * m₂).log2 := (Nat.le_log2 (Nat.mul_pos h₁ h₂).ne').mpr hfull
  have hscale : e₁ + e₂ ≤ scale v := by
    rw [scale, hlog]
    omega
  have hround := roundWithAccuracy_eq_settle (s := .positive) (a := .exact) hvpos
    (by rw [hquot]; exact sub_self _) hscale hn
  rw [← ofFloat_pack_settle_scale hvpos hn, ← hround]
  rfl

theorem tells_accuracyOfFraction (n : ℕ) {d : ℕ} (hd : 0 < d) :
    Tells (accuracyOfFraction (n % d) d) (n / d - (n / d : ℕ)) := by
  have hd' : (0 : ℚ) < d := by exact_mod_cast hd
  have hfract : (n / d - (n / d : ℕ) : ℚ) = (n % d : ℕ) / d := by
    have hdiv : ((d * (n / d) + n % d : ℕ) : ℚ) = n := by rw [Nat.div_add_mod]
    push_cast at hdiv
    rw [← hdiv]
    field_simp
    ring
  have hlt : ((n % d : ℕ) : ℚ) < d := by exact_mod_cast Nat.mod_lt n hd
  rw [hfract, accuracyOfFraction]
  by_cases h0 : n % d = 0
  · rw [if_pos h0, h0]
    simp [Tells]
  · have hpos : (0 : ℚ) < (n % d : ℕ) := by exact_mod_cast Nat.pos_of_ne_zero h0
    rw [if_neg h0]
    rcases hc : compare (2 * (n % d)) d
    · rw [Nat.compare_eq_lt] at hc
      have hc' : 2 * ((n % d : ℕ) : ℚ) < d := by exact_mod_cast hc
      exact ⟨by positivity, by rw [div_lt_iff₀ hd']; linarith⟩
    · rw [Nat.compare_eq_eq] at hc
      have hc' : 2 * ((n % d : ℕ) : ℚ) = d := by exact_mod_cast hc
      rw [Tells, div_eq_iff hd'.ne']
      linarith
    · rw [Nat.compare_eq_gt] at hc
      have hc' : (d : ℚ) < 2 * ((n % d : ℕ) : ℚ) := by exact_mod_cast hc
      exact ⟨by rw [lt_div_iff₀ hd']; linarith, by rw [div_lt_one hd']; exact hlt⟩

theorem log_div_ge {m₁ m₂ : ℕ} {e₁ e₂ : ℤ} (h₁ : 0 < m₁) (h₂ : 0 < m₂)
    (hv : v = m₁ * 2 ^ e₁ / (m₂ * 2 ^ e₂)) :
    m₁.log2 + e₁ - (m₂.log2 + e₂) - 1 ≤ Int.log 2 v := by
  have h₁' : (0 : ℚ) < m₁ := by exact_mod_cast h₁
  have h₂' : (0 : ℚ) < m₂ := by exact_mod_cast h₂
  have hlow : (2 : ℚ) ^ m₁.log2 ≤ m₁ := by exact_mod_cast Nat.log2_self_le h₁.ne'
  have hhigh : (m₂ : ℚ) ≤ 2 ^ (m₂.log2 + 1) := by exact_mod_cast Nat.lt_log2_self.le
  have hvpos : 0 < v := by rw [hv]; positivity
  rw [← Int.zpow_le_iff_le_log (by norm_num) hvpos]
  calc ((2 : ℕ) : ℚ) ^ ((m₁.log2 : ℤ) + e₁ - (m₂.log2 + e₂) - 1)
      = 2 ^ m₁.log2 * 2 ^ e₁ / (2 ^ (m₂.log2 + 1) * 2 ^ e₂) := by
        rw [eq_div_iff (by positivity), ← zpow_natCast, ← zpow_natCast, ← zpow_add₀ (by norm_num),
          ← zpow_add₀ (by norm_num), Nat.cast_ofNat, ← zpow_add₀ (by norm_num)]
        congr 1
        push_cast
        ring
    _ ≤ m₁ * 2 ^ e₁ / (m₂ * 2 ^ e₂) := by gcongr
    _ = v := hv.symm

theorem ofFloat_pack_div {m₁ m₂ : ℕ} {e₁ e₂ : ℤ} (h₁ : 0 < m₁) (h₂ : 0 < m₂)
    (hv : v = m₁ * 2 ^ e₁ / (m₂ * 2 ^ e₂)) {n : ℕ} (hn : NearestEven (v / 2 ^ scale v) n) :
    Binary.ofFloat (.ofModel (.pack (UnpackedFloat.div .binary64 (.finite .positive m₁ e₁ h₁)
      (.finite .positive m₂ e₂ h₂)))) = settled n (scale v) := by
  have h₁' : (0 : ℚ) < m₁ := by exact_mod_cast h₁
  have h₂' : (0 : ℚ) < m₂ := by exact_mod_cast h₂
  have hvpos : 0 < v := by rw [hv]; positivity
  set q := min (e₁ - e₂)
    (Format.binary64.targetExponent (totalExponent m₁ e₁ - totalExponent m₂ e₂)) with hq
  set k := (e₁ - e₂ - q).toNat with hk
  have hke : (k : ℤ) = e₁ - e₂ - q := by
    rw [hk, Int.toNat_of_nonneg (by omega)]
  have hquot : v / 2 ^ q = ((m₁ <<< k : ℕ) : ℚ) / m₂ := by
    have hpow : (2 : ℚ) ^ e₁ = 2 ^ k * 2 ^ e₂ * 2 ^ q := by
      rw [← zpow_natCast, hke, ← zpow_add₀ (by norm_num), ← zpow_add₀ (by norm_num)]
      congr 1
      ring
    rw [hv, hpow, Nat.shiftLeft_eq]
    push_cast
    field_simp
  have htells := tells_accuracyOfFraction (m₁ <<< k) h₂
  rw [← hquot] at htells
  have hscale : q ≤ scale v := by
    have hlog := log_div_ge h₁ h₂ hv
    rw [scale]
    rw [targetExponent_eq, totalExponent, totalExponent] at hq
    omega
  have hround := roundWithAccuracy_eq_settle (s := .positive) hvpos htells hscale hn
  rw [← ofFloat_pack_settle_scale hvpos hn, ← hround]
  rfl

end Engraver.Double
