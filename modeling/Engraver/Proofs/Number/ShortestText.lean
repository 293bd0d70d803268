import Engraver.Number.FloatText
import Engraver.Proofs.Number.Places

/-! # The shortest decimal, read back

Every candidate for the shortest decimal of a double was tested to lie among the numbers that are
rounded to the double, and moving zeros into the exponent keeps its value. So the digits with a
point that show it are read as the double they were written for.
-/

namespace Engraver

open Double

namespace Decimal

variable {m : ℕ} {q : ℤ}

def value (d : Decimal) : ℚ :=
  d.digits * 10 ^ d.exponent

section

variable {a n : ℕ} {i j : ℤ}

theorem scaled_eq (a n : ℕ) (i j : ℤ) :
    ((a * tenPow i.toNat * twoPow (-j).toNat : ℕ) : ℚ) =
      a * 10 ^ i * (10 ^ (-i).toNat * 2 ^ (-j).toNat) ∧
    ((n * twoPow j.toNat * tenPow (-i).toNat : ℕ) : ℚ) =
      n * 2 ^ j * (10 ^ (-i).toNat * 2 ^ (-j).toNat) := by
  have hten (k : ℕ) : (tenPow k : ℚ) = 10 ^ k := by exact_mod_cast rfl
  have htwo (k : ℕ) : (twoPow k : ℚ) = 2 ^ k := by exact_mod_cast rfl
  have hsplit (b : ℚ) (hb : b ≠ 0) (k : ℤ) : b ^ k * b ^ (-k).toNat = b ^ k.toNat := by
    rw [← zpow_natCast, ← zpow_natCast, ← zpow_add₀ hb]
    congr 1
    omega
  push_cast
  rw [hten, hten, htwo, htwo, ← hsplit 10 (by norm_num) i, ← hsplit 2 (by norm_num) j]
  constructor <;> ring

theorem compareScaled_eq_lt :
    compareScaled a i n j = .lt ↔ (a * 10 ^ i : ℚ) < n * 2 ^ j := by
  obtain ⟨ha, hn⟩ := scaled_eq a n i j
  rw [compareScaled, Nat.compare_eq_lt, ← Nat.cast_lt (α := ℚ), ha, hn]
  exact mul_lt_mul_iff_left₀ (by positivity)

theorem compareScaled_eq_gt :
    compareScaled a i n j = .gt ↔ (n * 2 ^ j : ℚ) < a * 10 ^ i := by
  obtain ⟨ha, hn⟩ := scaled_eq a n i j
  rw [compareScaled, Nat.compare_eq_gt, ← Nat.cast_lt (α := ℚ), ha, hn]
  exact mul_lt_mul_iff_left₀ (by positivity)

theorem compareScaled_eq_eq :
    compareScaled a i n j = .eq ↔ (a * 10 ^ i : ℚ) = n * 2 ^ j := by
  obtain ⟨ha, hn⟩ := scaled_eq a n i j
  rw [compareScaled, Nat.compare_eq_eq, ← Nat.cast_inj (R := ℚ), ha, hn]
  exact mul_left_inj' (by positivity)

end

theorem mul_quarter (k : ℚ) (q : ℤ) : k * 2 ^ (q - 2) = k / 4 * 2 ^ q := by
  rw [zpow_sub₀ (by norm_num)]
  norm_num
  ring

theorem roundsTo_of_readsBack {d : Decimal} (hm : 0 < m) (h : d.readsBack m q = true) :
    RoundsTo d.value m q := by
  have hpos : (0 : ℚ) < 2 ^ q := by positivity
  simp only [readsBack, Bool.and_eq_true, Bool.or_eq_true, beq_iff_eq, compareScaled_eq_gt,
    compareScaled_eq_lt, compareScaled_eq_eq, mul_quarter] at h
  obtain ⟨hlow, hhigh⟩ := h
  rw [← value] at hlow hhigh
  have hhighQ : (((4 * m + 2 : ℕ) : ℚ) / 4) = m + 1 / 2 := by
    push_cast
    ring
  have hlowQ : (((if narrowBelow m q then 4 * m - 1 else 4 * m - 2 : ℕ) : ℚ) / 4) =
      m - (if narrowBelow m q then 1 / 4 else 1 / 2) := by
    split
    · rw [Nat.cast_sub (by omega)]
      push_cast
      ring
    · rw [Nat.cast_sub (by omega)]
      push_cast
      ring
  rw [hlowQ] at hlow
  rw [hhighQ] at hhigh
  refine ⟨?_, ?_, fun hodd => ?_⟩
  · rw [le_div_iff₀ hpos]
    rcases hlow with hlow | ⟨-, hlow⟩
    · exact hlow.le
    · exact hlow.ge
  · rw [div_le_iff₀ hpos]
    rcases hhigh with hhigh | ⟨-, hhigh⟩
    · exact hhigh.le
    · exact hhigh.le
  · have hm2 : ¬ m % 2 = 0 := fun h0 => hodd (Nat.even_iff.mpr h0)
    have hlow := hlow.resolve_right fun h => hm2 h.1
    have hhigh := hhigh.resolve_right fun h => hm2 h.1
    rw [lt_div_iff₀ hpos, div_lt_iff₀ hpos]
    refine ⟨lt_of_le_of_lt ?_ hlow, hhigh⟩
    have : (if narrowBelow m q = true then (1 / 4 : ℚ) else 1 / 2) ≤ 1 / 2 := by
      split <;> norm_num
    exact mul_le_mul_of_nonneg_right (by linarith) hpos.le

theorem readsBack_of_onGrid? {tie : Tie} {e : ℤ} {d : Decimal}
    (h : onGrid? tie m q e = some d) : d.readsBack m q = true := by
  unfold onGrid? at h
  dsimp only at h
  split at h
  · cases h
  · next hlow _ =>
    cases h
    exact hlow
  · next _ hhigh =>
    cases h
    exact hhigh
  · next hlow hhigh =>
    split at h
    · cases h
      exact hlow
    · cases h
      exact hhigh
    · cases h
      exact hhigh
    · cases h
      split
      · exact hlow
      · exact hhigh

theorem value_exact (m : ℕ) (q : ℤ) : (exact m q).value = m * 2 ^ q := by
  rw [exact]
  split
  · next hq =>
    have htwo : (twoPow q.toNat : ℚ) = 2 ^ q.toNat := by exact_mod_cast rfl
    rw [value, Nat.cast_mul, htwo, zpow_zero, mul_one, ← zpow_natCast, Int.toNat_of_nonneg hq]
  · next hq =>
    have hsplit : (10 : ℚ) ^ q = 2 ^ q * 5 ^ q := by rw [← mul_zpow]; norm_num
    have hfive : ((Nat.pow 5 (-q).toNat : ℕ) : ℚ) * 5 ^ q = 1 := by
      have hpow : ((Nat.pow 5 (-q).toNat : ℕ) : ℚ) = 5 ^ (-q) := by
        rw [← Int.toNat_of_nonneg (show 0 ≤ -q by omega), zpow_natCast]
        exact_mod_cast rfl
      rw [hpow, ← zpow_add₀ (by norm_num), neg_add_cancel, zpow_zero]
    rw [value, Nat.cast_mul, hsplit]
    linear_combination (m : ℚ) * 2 ^ q * hfive

theorem roundsTo_exact (m : ℕ) (q : ℤ) : RoundsTo (exact m q).value m q := by
  have hquot : (exact m q).value / 2 ^ q = m := by
    rw [value_exact, mul_div_cancel_right₀ _ (by positivity)]
  refine ⟨?_, ?_, fun _ => ⟨?_, ?_⟩⟩ <;> rw [hquot]
  · split <;> linarith
  · linarith
  · linarith
  · linarith

theorem value_stripZeros (n : ℕ) (d : Decimal) : (stripZeros n d).value = d.value := by
  induction n generalizing d with
  | zero => rfl
  | succ n ih =>
    rw [stripZeros]
    split
    · next h0 =>
      rw [beq_iff_eq] at h0
      have hdigits : (d.digits : ℚ) = (d.digits / 10 : ℕ) * 10 := by
        exact_mod_cast (Nat.div_mul_cancel (Nat.dvd_of_mod_eq_zero h0)).symm
      rw [ih, value, value, hdigits, zpow_add₀ (by norm_num)]
      ring
    · rfl

/-- The shortest decimal of a double is rounded to it. -/
theorem roundsTo_shortest (tie : Tie) (hm : 0 < m) (q : ℤ) :
    RoundsTo (shortest tie m q).value m q := by
  rw [shortest, value_stripZeros]
  cases hfound : (List.range 17).findSome? fun (i : ℕ) =>
      onGrid? tie m q (magnitude m q - (i + 1 : ℕ)) with
  | none => exact roundsTo_exact m q
  | some d =>
    obtain ⟨i, -, hi⟩ := List.exists_of_findSome?_eq_some hfound
    exact roundsTo_of_readsBack hm (readsBack_of_onGrid? hi)

end Decimal

def NoLeadingZero (ds : List Char) : Prop :=
  ds = ['0'] ∨ ∃ c r, ds = c :: r ∧ c ≠ '0'

theorem NoLeadingZero.exists_cons {ds : List Char} (h : NoLeadingZero ds) : ∃ c r, ds = c :: r := by
  rcases h with rfl | ⟨c, r, rfl, -⟩
  · exact ⟨'0', [], rfl⟩
  · exact ⟨c, r, rfl⟩

/-- Digits around a point, at least one on either side, that stand for `v`. -/
structure PointText (cs whole fraction : List Char) (v : ℚ) : Prop where
  cut : cs = whole ++ '.' :: fraction
  whole_digits : ∀ c ∈ whole, c.isDigit
  fraction_digits : ∀ c ∈ fraction, c.isDigit
  whole_lead : NoLeadingZero whole
  fraction_ne : fraction ≠ []
  value : (Numeral.value (whole ++ fraction) : ℚ) * 10 ^ (-(fraction.length : ℤ)) = v

theorem exists_toDigits_eq_cons {n : ℕ} (hn : 0 < n) :
    ∃ c r, Nat.toDigits 10 n = c :: r ∧ c ≠ '0' := by
  induction n using Nat.strong_induction_on with
  | _ n ih =>
    rcases Nat.lt_or_ge n 10 with hlt | hge
    · have hdigit : ∀ d < 10, 0 < d → Nat.digitChar d ≠ '0' := by decide
      exact ⟨_, [], Nat.toDigits_of_lt_base hlt, hdigit n hlt hn⟩
    · obtain ⟨c, r, hcons, hc⟩ := ih (n / 10) (by omega) (by omega)
      refine ⟨c, r ++ [Nat.digitChar (n % 10)], ?_, hc⟩
      rw [Nat.toDigits_of_base_le (by decide) hge, hcons]
      rfl

theorem noLeadingZero_toDigits (n : ℕ) : NoLeadingZero (Nat.toDigits 10 n) := by
  rcases Nat.eq_zero_or_pos n with rfl | hn
  · exact .inl rfl
  · exact .inr (exists_toDigits_eq_cons hn)

namespace FloatText

variable {t : FloatText} {ds : List Char} {e : ℤ}

theorem value_zeros_append (k : ℕ) (ds : List Char) :
    Numeral.value (zeros k ++ ds) = Numeral.value ds := by
  rw [Numeral.value, zeros, Nat.ofDigitChars_append, Nat.ofDigitChars_replicate_zero, Nat.mul_zero]
  rfl

theorem value_append_zeros (k : ℕ) (ds : List Char) :
    Numeral.value (ds ++ zeros k) = Numeral.value ds * 10 ^ k := by
  rw [Numeral.value, zeros, Nat.ofDigitChars_append, Nat.ofDigitChars_replicate_zero, mul_comm]
  rfl

theorem isDigit_of_mem_zeros {k : ℕ} {c : Char} (hc : c ∈ zeros k) : c.isDigit := by
  rw [List.eq_of_mem_replicate hc]
  rfl

theorem pointText_below_one (hds : ∀ c ∈ ds, c.isDigit) (hne : ds ≠ []) (he : e < 0) :
    PointText ('0' :: '.' :: zeros ((-e).toNat - 1) ++ ds) ['0'] (zeros ((-e).toNat - 1) ++ ds)
      (Numeral.value ds * 10 ^ (e + 1 - ds.length)) where
  cut := by simp
  whole_digits := by simp
  fraction_digits := by
    intro c hc
    rcases List.mem_append.mp hc with hc | hc
    · exact isDigit_of_mem_zeros hc
    · exact hds c hc
  whole_lead := .inl rfl
  fraction_ne := by simp [hne]
  value := by
    have hvalue : Numeral.value (['0'] ++ (zeros ((-e).toNat - 1) ++ ds)) = Numeral.value ds := by
      rw [← value_zeros_append ((-e).toNat - 1) ds]
      exact value_zeros_append 1 _
    have hlength : -((zeros ((-e).toNat - 1) ++ ds).length : ℤ) = e + 1 - ds.length := by
      rw [List.length_append, zeros, List.length_replicate]
      omega
    rw [hvalue, hlength]

theorem pointText_whole (hds : ∀ c ∈ ds, c.isDigit) (hlead : NoLeadingZero ds)
    (hzero : ds = ['0'] → e = 0) (he : 0 ≤ e) (hlen : ds.length ≤ e.toNat + 1) :
    PointText (ds ++ zeros (e.toNat + 1 - ds.length) ++ ['.', '0'])
      (ds ++ zeros (e.toNat + 1 - ds.length)) ['0']
      (Numeral.value ds * 10 ^ (e + 1 - ds.length)) where
  cut := rfl
  whole_digits := by
    intro c hc
    rcases List.mem_append.mp hc with hc | hc
    · exact hds c hc
    · exact isDigit_of_mem_zeros hc
  fraction_digits := by simp
  whole_lead := by
    rcases hlead with rfl | ⟨c, r, rfl, hc⟩
    · rw [hzero rfl]
      exact .inl rfl
    · exact .inr ⟨c, _, rfl, hc⟩
  fraction_ne := by simp
  value := by
    have hvalue : Numeral.value (ds ++ zeros (e.toNat + 1 - ds.length) ++ ['0']) =
        Numeral.value ds * 10 ^ (e.toNat + 1 - ds.length) * 10 := by
      rw [← value_append_zeros, ← pow_one 10, ← value_append_zeros]
      rfl
    have hexp : (10 : ℚ) ^ (e.toNat + 1 - ds.length) = 10 ^ (e + 1 - ds.length) := by
      rw [← zpow_natCast]
      congr 1
      omega
    rw [hvalue]
    push_cast
    rw [hexp]
    simp

theorem pointText_between (hds : ∀ c ∈ ds, c.isDigit) (hlead : NoLeadingZero ds) (he : 0 ≤ e)
    (hlen : ¬ ds.length ≤ e.toNat + 1) :
    PointText (ds.take (e.toNat + 1) ++ '.' :: ds.drop (e.toNat + 1)) (ds.take (e.toNat + 1))
      (ds.drop (e.toNat + 1)) (Numeral.value ds * 10 ^ (e + 1 - ds.length)) where
  cut := rfl
  whole_digits := fun c hc => hds c (List.mem_of_mem_take hc)
  fraction_digits := fun c hc => hds c (List.mem_of_mem_drop hc)
  whole_lead := by
    rcases hlead with rfl | ⟨c, r, rfl, hc⟩
    · simp at hlen
    · exact .inr ⟨c, r.take e.toNat, rfl, hc⟩
  fraction_ne := by
    rw [ne_eq, List.drop_eq_nil_iff]
    exact hlen
  value := by
    rw [List.take_append_drop, List.length_drop]
    congr 2
    omega

theorem exists_pointText_layPositional (ht : t.pointZero = true) (hds : ∀ c ∈ ds, c.isDigit)
    (hlead : NoLeadingZero ds) (hzero : ds = ['0'] → e = 0) :
    ∃ whole fraction, PointText (t.layPositional ds e) whole fraction
      (Numeral.value ds * 10 ^ (e + 1 - ds.length)) := by
  rw [layPositional]
  dsimp only
  split_ifs with he hlen
  · obtain ⟨c, r, hcons⟩ := hlead.exists_cons
    exact ⟨_, _, pointText_below_one hds (by simp [hcons]) he⟩
  · exact ⟨_, _, pointText_whole hds hlead hzero (Int.not_lt.mp he) hlen⟩
  · exact ⟨_, _, pointText_between hds hlead (Int.not_lt.mp he) hlen⟩

theorem exists_pointText_render (ht : t.pointZero = true) (hpositional : t.positional = none)
    {x : Float} {negative : Bool} {m : ℕ} {q : ℤ} (hx : Binary.ofFloat x = .finite negative m q) :
    ∃ cs whole fraction v, (t.render x).toList = Fixed.signed negative cs ∧
      PointText cs whole fraction v ∧ (m = 0 ∧ v = 0 ∨ 0 < m ∧ RoundsTo v m q) := by
  have hrender : (t.render x).toList = Fixed.signed negative
      (if m = 0 then t.layPositional ['0'] 0 else t.layout (Decimal.shortest t.tie m q)) := by
    rw [render, hx, renderBinary, String.toList_ofList]
    rfl
  rcases Nat.eq_zero_or_pos m with rfl | hm
  · obtain ⟨whole, fraction, htext⟩ :=
      @exists_pointText_layPositional t ['0'] 0 ht (by simp) (.inl rfl) fun _ => rfl
    refine ⟨_, whole, fraction, _, hrender, htext, .inl ⟨rfl, ?_⟩⟩
    have hvalue : Numeral.value ['0'] = 0 := rfl
    rw [hvalue]
    simp
  · set d := Decimal.shortest t.tie m q with hd
    have hround := Decimal.roundsTo_shortest t.tie hm q
    rw [← hd] at hround
    have hdpos : 0 < d.digits := by
      apply Nat.pos_of_ne_zero
      intro h0
      have hpos := hround.pos hm
      rw [Decimal.value, h0] at hpos
      simp at hpos
    obtain ⟨c, r, hcons, hc⟩ := exists_toDigits_eq_cons hdpos
    obtain ⟨whole, fraction, htext⟩ := exists_pointText_layPositional (t := t)
      (e := d.exponent + (Nat.toDigits 10 d.digits).length - 1) ht
      (fun c hc => Nat.isDigit_of_mem_toDigits (by decide) (by decide) hc)
      (noLeadingZero_toDigits d.digits)
      (fun h0 => absurd (List.cons.inj (hcons.symm.trans h0)).1 hc)
    have hvalue : (Numeral.value (Nat.toDigits 10 d.digits) : ℚ) *
        10 ^ (d.exponent + (Nat.toDigits 10 d.digits).length - 1 + 1 -
          (Nat.toDigits 10 d.digits).length) = d.value := by
      have hdigits : Numeral.value (Nat.toDigits 10 d.digits) = d.digits :=
        Nat.ofDigitChars_ten_toDigits
      rw [hdigits, sub_add_cancel, add_sub_cancel_right]
      rfl
    have hlayout : t.layout d = t.layPositional (Nat.toDigits 10 d.digits)
        (d.exponent + (Nat.toDigits 10 d.digits).length - 1) := by
      rw [layout, hpositional]
    rw [hvalue, ← hlayout] at htext
    exact ⟨_, whole, fraction, _, by rw [hrender, if_neg hm.ne'], htext, .inr ⟨hm, hround⟩⟩

end FloatText

namespace Double

variable {cs whole fraction : List Char} {v : ℚ} {x : Float} {negative : Bool} {m : ℕ} {q : ℤ}

/-- Digits with a point are rounded to the double whose shortest decimal they show. -/
theorem ofFloat_pointText (hx : Binary.ofFloat x = .finite negative m q)
    (h : PointText cs whole fraction v) (hv : m = 0 ∧ v = 0 ∨ 0 < m ∧ RoundsTo v m q) :
    Binary.ofFloat (Numeral.scientific (Numeral.value (whole ++ fraction)) (-fraction.length)) =
      .finite false m q := by
  have hc := canonical_of_ofFloat hx
  rcases hv with ⟨rfl, rfl⟩ | ⟨hm, hround⟩
  · have hzero : Numeral.value (whole ++ fraction) = 0 := by
      have := h.value
      simpa using this
    have hq : q = -1074 := hc.full.resolve_left (by decide)
    rw [hzero, hq]
    exact ofFloat_scientific_zero _
  · exact ofFloat_scientific_of_roundsTo hm hc h.value.symm hround

theorem eq_of_pointText (hx : Binary.ofFloat x = .finite negative m q)
    (h : PointText cs whole fraction v) (hv : m = 0 ∧ v = 0 ∨ 0 < m ∧ RoundsTo v m q) :
    (if negative then -Numeral.scientific (Numeral.value (whole ++ fraction)) (-fraction.length)
      else Numeral.scientific (Numeral.value (whole ++ fraction)) (-fraction.length)) = x := by
  have hread := ofFloat_pointText hx h hv
  cases negative with
  | true =>
    rw [if_pos rfl]
    exact ofFloat_injective ((ofFloat_neg hread).trans hx.symm)
  | false =>
    rw [if_neg (by decide)]
    exact ofFloat_injective (hread.trans hx.symm)

end Double

end Engraver
