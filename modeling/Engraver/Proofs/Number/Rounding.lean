import Engraver.Number.FloatText
import Mathlib

/-! # Rounding to the nearest

Both a number of decimal places and the mantissa of a double are found by one rule: the nearest
whole number, of two the even one. The rule determines the number, and nothing is nearer.
-/

namespace Engraver

/-- No whole number is nearer to `w` than `n`, and `n` is even if one is as near. -/
structure NearestEven (w : ℚ) (n : ℕ) : Prop where
  near : |w - n| ≤ 1 / 2
  even : |w - n| = 1 / 2 → Even n

namespace NearestEven

variable {w : ℚ} {n k : ℕ}

theorem one_le_abs_sub_add (w : ℚ) (h : n ≠ k) : 1 ≤ |w - n| + |w - k| := by
  have hone : (1 : ℚ) ≤ |(n : ℚ) - k| := by
    have hint : (1 : ℤ) ≤ |(n : ℤ) - k| := Int.one_le_abs (by omega)
    exact_mod_cast hint
  calc (1 : ℚ) ≤ |(n : ℚ) - k| := hone
    _ = |(w - k) - (w - n)| := by congr 1; ring
    _ ≤ |w - k| + |w - n| := abs_sub _ _
    _ = |w - n| + |w - k| := add_comm _ _

theorem unique (hn : NearestEven w n) (hk : NearestEven w k) : n = k := by
  by_contra hne
  have hfar := one_le_abs_sub_add w hne
  have hn' : |w - n| = 1 / 2 := le_antisymm hn.near (by linarith [hk.near])
  have hk' : |w - k| = 1 / 2 := le_antisymm hk.near (by linarith [hn.near])
  -- both are half a unit away, so they are neighbours, and both are even
  obtain ⟨a, ha⟩ := hn.even hn'
  obtain ⟨b, hb⟩ := hk.even hk'
  have hdist : |(n : ℚ) - k| ≤ 1 := by
    calc |(n : ℚ) - k| = |(w - k) - (w - n)| := by congr 1; ring
      _ ≤ |w - k| + |w - n| := abs_sub _ _
      _ = 1 := by rw [hn', hk']; norm_num
  have hint : |(n : ℤ) - k| ≤ 1 := by exact_mod_cast hdist
  rw [abs_le] at hint
  omega

theorem le_abs_sub (h : NearestEven w n) (k : ℕ) : |w - n| ≤ |w - k| := by
  by_cases hk : n = k
  · rw [hk]
  · linarith [one_le_abs_sub_add w hk, h.near]

theorem of_lt (h : |w - n| < 1 / 2) : NearestEven w n :=
  ⟨h.le, fun he => absurd he h.ne⟩

theorem natCast (n : ℕ) : NearestEven n n := by
  apply of_lt
  simp

/-- A number at most as far from `n` as one that rounds to `n` rounds to `n` as well. -/
theorem of_abs_sub_le (h : NearestEven w n) {u : ℚ} (hu : |u - n| ≤ |w - n|) : NearestEven u n :=
  ⟨hu.trans h.near, fun he => h.even (le_antisymm h.near (he ▸ hu))⟩

theorem le_of_le (h : NearestEven w n) (hk : w ≤ k) : n ≤ k := by
  by_contra hlt
  have hone : (k : ℚ) + 1 ≤ n := by exact_mod_cast Nat.lt_of_not_le hlt
  have := (abs_le.mp h.near).1
  linarith

theorem le_of_ge (h : NearestEven w n) (hk : k ≤ w) : k ≤ n := by
  by_contra hlt
  have hone : (n : ℚ) + 1 ≤ k := by exact_mod_cast Nat.lt_of_not_le hlt
  have := (abs_le.mp h.near).2
  linarith

end NearestEven

namespace Fixed

theorem even_roundEven_of_half {n d : ℕ} (hd : 0 < d)
    (h : 2 * n = 2 * (roundEven n d * d) + d ∨ 2 * (roundEven n d * d) = 2 * n + d) :
    Even (roundEven n d) := by
  have hdiv : d * (n / d) + n % d = n := Nat.div_add_mod n d
  have hmod : n % d < d := Nat.mod_lt n hd
  simp only [roundEven] at h ⊢
  generalize n / d = k at *
  generalize n % d = r at *
  have hk : (k + 1) * d = d * k + d := by ring
  have hk0 : k * d = d * k := by ring
  generalize d * k = p at *
  split at h
  · next hc => rw [Nat.compare_eq_lt] at hc; omega
  · next hc => rw [Nat.compare_eq_gt] at hc; omega
  · split
    · next heven => exact Nat.even_iff.mpr (by simpa using heven)
    · next hodd =>
      rw [beq_iff_eq] at hodd
      exact Nat.even_iff.mpr (by omega)

/-- The rounded quotient is the nearest whole number to the exact one. -/
theorem nearestEven_roundEven (n : ℕ) {d : ℕ} (hd : 0 < d) :
    NearestEven (n / d) (roundEven n d) := by
  have hd' : (0 : ℚ) < d := by exact_mod_cast hd
  have hnear := roundEven_near n hd
  have hlow : 2 * ((roundEven n d : ℚ) * d) ≤ 2 * n + d := by exact_mod_cast hnear.1
  have hhigh : 2 * (n : ℚ) ≤ 2 * ((roundEven n d : ℚ) * d) + d := by exact_mod_cast hnear.2
  have hdist : |(n / d : ℚ) - roundEven n d| = |(n : ℚ) - roundEven n d * d| / d := by
    rw [← abs_of_pos hd', ← abs_div, abs_of_pos hd']
    congr 1
    field_simp
  refine ⟨?_, fun hhalf => even_roundEven_of_half hd ?_⟩
  · rw [hdist, div_le_iff₀ hd', abs_le]
    constructor <;> linarith
  · rw [hdist, div_eq_iff hd'.ne'] at hhalf
    rcases abs_cases ((n : ℚ) - roundEven n d * d) with ⟨habs, -⟩ | ⟨habs, -⟩
    · left
      have : (2 * n : ℚ) = 2 * (roundEven n d * d) + d := by linarith
      exact_mod_cast this
    · right
      have : (2 * (roundEven n d * d) : ℚ) = 2 * n + d := by linarith
      exact_mod_cast this

end Fixed

theorem exists_nearestEven {w : ℚ} (h : 0 ≤ w) : ∃ n, NearestEven w n := by
  refine ⟨Fixed.roundEven w.num.toNat w.den, ?_⟩
  have hnum : ((w.num.toNat : ℕ) : ℚ) = (w.num : ℚ) := by
    exact_mod_cast Int.toNat_of_nonneg (Rat.num_nonneg.mpr h)
  have hw := Fixed.nearestEven_roundEven w.num.toNat w.den_pos
  rwa [hnum, Rat.num_div_den] at hw

end Engraver
