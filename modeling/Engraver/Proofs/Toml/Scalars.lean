import Engraver.Proofs.Number.ShortestText
import Engraver.Toml.Parser
import Engraver.Toml.Quoted

/-! # Written numbers in TOML

A number that was written at the end of a line is read back: none of its beginnings looks like a
date, a number to a base or a word, and its digits end where the line does.
-/

namespace Engraver.Toml

variable {ds r : List Char} {c : Char}

theorem moreDigits_append (hds : ∀ d ∈ ds, d.isDigit) (hc : ¬ c.isDigit) (hu : c ≠ '_') :
    moreDigits Char.isDigit (ds ++ c :: r) = (ds, c :: r) := by
  induction ds with
  | nil =>
    cases r with
    | nil => simp [moreDigits, hc]
    | cons d r => simp [moreDigits, hc, hu]
  | cons d ds ih =>
    have hd : d.isDigit := hds d List.mem_cons_self
    have ih := ih fun d hd => hds d (List.mem_cons_of_mem _ hd)
    obtain ⟨a, s, hcons⟩ := List.exists_cons_of_ne_nil (show ds ++ c :: r ≠ [] by simp)
    rw [List.cons_append]
    rw [hcons] at ih ⊢
    rw [moreDigits, if_pos hd, ih]

theorem digitRun?_append (hne : ds ≠ []) (hds : ∀ d ∈ ds, d.isDigit) (hc : ¬ c.isDigit)
    (hu : c ≠ '_') : digitRun? Char.isDigit (ds ++ c :: r) = some (ds, c :: r) := by
  obtain ⟨d, ds, rfl⟩ := List.exists_cons_of_ne_nil hne
  rw [List.cons_append, digitRun?, if_pos (hds d List.mem_cons_self),
    moreDigits_append (fun d hd => hds d (List.mem_cons_of_mem _ hd)) hc hu]

theorem wholeDigits?_append (hlead : NoLeadingZero ds) (hds : ∀ d ∈ ds, d.isDigit)
    (hc : ¬ c.isDigit) (hu : c ≠ '_') : wholeDigits? (ds ++ c :: r) = some (ds, c :: r) := by
  rcases hlead with rfl | ⟨d, s, rfl, hd⟩
  · rfl
  · rw [List.cons_append, wholeDigits?]
    · exact digitRun?_append (List.cons_ne_nil _ _) hds hc hu
    · rintro s' hs
      exact hd (List.cons.inj hs).1

theorem looksLikeMoment_append (hds : ∀ d ∈ ds, d.isDigit) (hc : ¬ c.isDigit) (hcolon : c ≠ ':')
    (hminus : c ≠ '-') : looksLikeMoment (ds ++ c :: r) = false := by
  have hnot {d : Char} (hd : d ∈ ds) : d ≠ ':' ∧ d ≠ '-' := by
    constructor <;> rintro rfl <;> exact absurd (hds _ hd) (by decide)
  unfold looksLikeMoment
  split
  · next heq =>
    match ds with
    | [] =>
      cases heq
      simp [hc]
    | [_] =>
      cases heq
      simp [hc]
    | [_, _] =>
      cases heq
      exact absurd rfl hcolon
    | _ :: _ :: _ :: _ =>
      cases heq
      exact absurd rfl (hnot (by simp)).1
  · next heq =>
    match ds with
    | [] | [_] | [_, _] | [_, _, _] =>
      cases heq
      simp [hc]
    | [_, _, _, _] =>
      cases heq
      exact absurd rfl hminus
    | _ :: _ :: _ :: _ :: _ :: _ =>
      cases heq
      exact absurd rfl (hnot (by simp)).2
  · rfl

theorem looksLikeMoment_cons (hc : ¬ c.isDigit) : looksLikeMoment (c :: r) = false := by
  unfold looksLikeMoment
  split
  · next heq =>
    cases heq
    simp [hc]
  · next heq =>
    cases heq
    simp [hc]
  · rfl

/-- A text that begins with a digit, a sign or a word for a number is a scalar. -/
theorem value?_eq_scalar {fuel depth : ℕ}
    (h : c ≠ '"' ∧ c ≠ '\'' ∧ c ≠ '[' ∧ c ≠ '\x7b' ∧ c ≠ 't' ∧ c ≠ 'f') :
    value? (fuel + 1) depth (c :: r) = scalar (c :: r) := by
  obtain ⟨h1, h2, h3, h4, h5, h6⟩ := h
  rw [value?] <;> rintro s hs <;> exact absurd (List.cons.inj hs).1 (by assumption)

theorem scalar_eq_decimal? {cs : List Char} (hmoment : looksLikeMoment cs = false)
    (hbase : ∀ s, cs ≠ '0' :: 'x' :: s ∧ cs ≠ '0' :: 'o' :: s ∧ cs ≠ '0' :: 'b' :: s) :
    scalar cs = decimal? cs := by
  unfold scalar
  split
  · exact absurd rfl (hbase _).1
  · exact absurd rfl (hbase _).2.1
  · exact absurd rfl (hbase _).2.2
  · rw [hmoment]
    rfl

theorem value?_eq_decimal? {fuel depth : ℕ}
    (h : c ≠ '"' ∧ c ≠ '\'' ∧ c ≠ '[' ∧ c ≠ '\x7b' ∧ c ≠ 't' ∧ c ≠ 'f') (hc : ¬ c.isDigit) :
    value? (fuel + 1) depth (c :: r) = decimal? (c :: r) := by
  rw [value?_eq_scalar h, scalar_eq_decimal? (looksLikeMoment_cons hc)]
  have hzero : c ≠ '0' := by
    rintro rfl
    exact hc (by decide)
  simp [hzero]

theorem decimal?_of_isDigit {negative : Bool} {cs : List Char}
    (hsign : Numeral.splitSign cs = (negative, c :: r)) (hc : c.isDigit) :
    decimal? cs = (wholeDigits? (c :: r)).bind fun p => numberTail? negative p.1 p.2 := by
  unfold decimal?
  rw [hsign]
  dsimp only
  split
  · next heq =>
    rw [(List.cons.inj heq).1] at hc
    exact absurd hc (by decide)
  · next heq =>
    rw [(List.cons.inj heq).1] at hc
    exact absurd hc (by decide)
  · rfl

/-- Digits without a needless zero in front do not look like a number to a base. -/
theorem ne_base_of_noLeadingZero (hlead : NoLeadingZero ds) (hc : c ≠ 'x' ∧ c ≠ 'o' ∧ c ≠ 'b')
    (s : List Char) : ds ++ c :: r ≠ '0' :: 'x' :: s ∧ ds ++ c :: r ≠ '0' :: 'o' :: s ∧
      ds ++ c :: r ≠ '0' :: 'b' :: s := by
  rcases hlead with rfl | ⟨d, t, rfl, hd⟩
  · simp [hc]
  · simp [hd]

theorem ne_special_of_isDigit (hc : c.isDigit) :
    c ≠ '"' ∧ c ≠ '\'' ∧ c ≠ '[' ∧ c ≠ '\x7b' ∧ c ≠ 't' ∧ c ≠ 'f' := by
  refine ⟨?_, ?_, ?_, ?_, ?_, ?_⟩ <;> rintro rfl <;> exact absurd hc (by decide)

theorem value?_signed_digits (negative : Bool) (hds : ∀ d ∈ ds, d.isDigit)
    (hlead : NoLeadingZero ds) (hc : ¬ c.isDigit) (hmark : c ≠ ':' ∧ c ≠ '-' ∧ c ≠ '_')
    (hbase : c ≠ 'x' ∧ c ≠ 'o' ∧ c ≠ 'b') {fuel depth : ℕ} :
    value? (fuel + 1) depth (Fixed.signed negative (ds ++ c :: r)) =
      numberTail? negative ds (c :: r) := by
  have hwhole := wholeDigits?_append (r := r) hlead hds hc hmark.2.2
  have hmoment := looksLikeMoment_append (r := r) hds hc hmark.1 hmark.2.1
  have hbase := ne_base_of_noLeadingZero (r := r) hlead hbase
  obtain ⟨d, s, hcons⟩ := hlead.exists_cons
  have hd : d.isDigit := hds d (hcons ▸ List.mem_cons_self)
  -- the readers go by the first digit
  have htext : ds ++ c :: r = d :: (s ++ c :: r) := by
    rw [hcons, List.cons_append]
  rw [htext] at hwhole hmoment hbase ⊢
  cases negative with
  | true =>
    rw [Fixed.signed, if_pos rfl, value?_eq_decimal? (by decide) (by decide),
      decimal?_of_isDigit rfl hd, hwhole, Option.bind_some]
  | false =>
    rw [Fixed.signed, if_neg (by decide), value?_eq_scalar (ne_special_of_isDigit hd),
      scalar_eq_decimal? hmoment hbase, decimal?_of_isDigit (Numeral.splitSign_of_isDigit hd) hd,
      hwhole, Option.bind_some]

theorem value?_whole {n fuel depth : ℕ} (h : IntRange.int64.contains n) :
    value? (fuel + 1) depth (Nat.toDigits 10 n ++ '\n' :: r) = some (.int n, '\n' :: r) := by
  have hds : ∀ d ∈ Nat.toDigits 10 n, d.isDigit := fun d hd =>
    Nat.isDigit_of_mem_toDigits (by decide) (by decide) hd
  have hvalue : Numeral.value (Nat.toDigits 10 n) = n := Nat.ofDigitChars_ten_toDigits
  have hint : intDocument? (numberTail?.signed false (Nat.toDigits 10 n)) = some (.int n) := by
    rw [numberTail?.signed, if_neg (by decide), hvalue, intDocument?, if_pos h]
  have htail : numberTail? false (Nat.toDigits 10 n) ('\n' :: r) = some (.int n, '\n' :: r) := by
    rw [numberTail?]
    · simp [exponentMark, hint]
    · decide
  exact (value?_signed_digits false hds (noLeadingZero_toDigits n) (by decide) (by decide)
    (by decide)).trans htail

theorem floatDocument?_eq {digits : List Char} {e : ℤ} {x : Float} {negative : Bool}
    (h : (if negative then -Numeral.scientific (Numeral.value digits) e
      else Numeral.scientific (Numeral.value digits) e) = x)
    (hx : (Numeral.scientific (Numeral.value digits) e).isInf = false) :
    floatDocument? negative digits e = some (.float x) := by
  unfold floatDocument?
  dsimp only
  rw [hx, if_neg (by decide), h]

theorem numberTail?_point {negative : Bool} {whole fraction : List Char} {d : Document}
    (hne : fraction ≠ []) (hf : ∀ d ∈ fraction, d.isDigit)
    (hd : floatDocument? negative (whole ++ fraction) (-fraction.length) = some d) :
    numberTail? negative whole ('.' :: (fraction ++ '\n' :: r)) = some (d, '\n' :: r) := by
  have hrun : digitRun? Char.isDigit (fraction ++ '\n' :: r) = some (fraction, '\n' :: r) :=
    digitRun?_append hne hf (by decide) (by decide)
  simp [numberTail?, hrun, exponentMark, hd]

theorem value?_signed_point {cs whole fraction : List Char} {v : ℚ} {x : Float} {negative : Bool}
    {m : ℕ} {q : ℤ} (hx : Binary.ofFloat x = .finite negative m q)
    (h : PointText cs whole fraction v) (hv : m = 0 ∧ v = 0 ∨ 0 < m ∧ Double.RoundsTo v m q)
    {fuel depth : ℕ} :
    value? (fuel + 1) depth (Fixed.signed negative cs ++ '\n' :: r) =
      some (.float x, '\n' :: r) := by
  have hdocument : floatDocument? negative (whole ++ fraction) (-fraction.length) =
      some (.float x) := by
    refine floatDocument?_eq (Double.eq_of_pointText hx h hv) (Double.isInf_eq_false ?_)
    rw [Double.ofFloat_pointText hx h hv]
    rfl
  have htext : Fixed.signed negative cs ++ '\n' :: r =
      Fixed.signed negative (whole ++ '.' :: (fraction ++ '\n' :: r)) := by
    rw [h.cut]
    cases negative <;> simp [Fixed.signed]
  rw [htext, value?_signed_digits negative h.whole_digits h.whole_lead (by decide) (by decide)
    (by decide), numberTail?_point h.fraction_ne h.fraction_digits hdocument]

/-- Every double is read back from its text, not-a-number and the infinities among them. -/
theorem value?_real (x : Float) {fuel depth : ℕ} :
    value? (fuel + 1) depth ((floatText.render x).toList ++ '\n' :: r) =
      some (.float x, '\n' :: r) := by
  cases hx : Binary.ofFloat x with
  | nan =>
    have hnan : x = 0.0 / 0.0 := Double.ofFloat_injective (hx.trans (by decide +kernel))
    have hrender : (floatText.render x).toList = ['n', 'a', 'n'] := by
      rw [FloatText.render, hx]
      decide
    rw [hrender, hnan, List.cons_append, value?_eq_decimal? (by decide) (by decide)]
    rfl
  | infinite negative =>
    have hrender : (floatText.render x).toList = Fixed.signed negative ['i', 'n', 'f'] := by
      rw [FloatText.render, hx]
      cases negative <;> decide
    rw [hrender]
    cases negative with
    | true =>
      have hinf : x = -1.0 / 0.0 := Double.ofFloat_injective (hx.trans (by decide +kernel))
      rw [hinf, Fixed.signed, if_pos rfl, List.cons_append,
        value?_eq_decimal? (by decide) (by decide)]
      rfl
    | false =>
      have hinf : x = 1.0 / 0.0 := Double.ofFloat_injective (hx.trans (by decide +kernel))
      rw [hinf, Fixed.signed, if_neg (by decide), List.cons_append,
        value?_eq_decimal? (by decide) (by decide)]
      rfl
  | finite negative m q =>
    obtain ⟨cs, whole, fraction, v, hrender, htext, hv⟩ :=
      FloatText.exists_pointText_render (t := floatText) rfl rfl hx
    rw [hrender]
    exact value?_signed_point hx htext hv

end Engraver.Toml
