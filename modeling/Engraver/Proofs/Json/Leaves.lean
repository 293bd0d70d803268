import Engraver.Json.Parser
import Engraver.Json.Basic
import Engraver.Proofs.Number.ShortestText

/-! # Written texts and numbers in JSON

A quoted text is read back whatever it holds. A number that is read up to its end is read as far
in front of a character that no number goes on with.
-/

namespace Engraver.Json

variable {cs r : List Char}

/-- A character as it is written is one piece, which stands for the character. -/
theorem exists_piece_escape (c : Char) :
    ∃ p, (∀ r, pieces? (escape c ++ r) = (pieces? r).map fun q => (p :: q.1, q.2)) ∧
      ∀ ps, textOf? (p :: ps) = (textOf? ps).map (c :: ·) := by
  have hletter (d : Char) (hd : d ≠ 'u') (hc : unescape? d = some c) (r : List Char) :
      pieces? ('\\' :: d :: r) = (pieces? r).map fun q => (.char c :: q.1, q.2) := by
    rw [pieces?, hc]
    · cases pieces? r <;> rfl
    · rintro a b e f s hs
      exact absurd hs hd
  unfold escape
  split_ifs with h1 h2 h3 h4 h5 h6 h7 h8
  · exact ⟨.char c, hletter '"' (by decide) (by rw [h1]; rfl), fun _ => rfl⟩
  · exact ⟨.char c, hletter '\\' (by decide) (by rw [h2]; rfl), fun _ => rfl⟩
  · exact ⟨.char c, hletter 'b' (by decide) (by rw [h3]; rfl), fun _ => rfl⟩
  · exact ⟨.char c, hletter 't' (by decide) (by rw [h4]; rfl), fun _ => rfl⟩
  · exact ⟨.char c, hletter 'n' (by decide) (by rw [h5]; rfl), fun _ => rfl⟩
  · exact ⟨.char c, hletter 'f' (by decide) (by rw [h6]; rfl), fun _ => rfl⟩
  · exact ⟨.char c, hletter 'r' (by decide) (by rw [h7]; rfl), fun _ => rfl⟩
  · refine ⟨.unit c.toNat, fun r => ?_, fun ps => ?_⟩
    · have hmod : c.toNat % 256 = c.toNat := Nat.mod_eq_of_lt (by omega)
      have hnumber := Text.hexNumber?_byte (Text.digitValue?_hexDigit (c.toNat / 16))
        (Text.digitValue?_hexDigit c.toNat)
      simp only [List.cons_append, List.nil_append, pieces?, hnumber, hmod]
      cases pieces? r <;> rfl
    · have hlow : (decide (c.toNat < 0xd800) || decide (0xe000 ≤ c.toNat)) = true := by
        simp
        omega
      rw [textOf?.eq_def]
      dsimp only
      rw [if_pos hlow, Char.ofNat_toNat]
  · refine ⟨.char c, fun r => ?_, fun _ => rfl⟩
    rw [List.singleton_append, pieces?, if_neg h8]
    · cases pieces? r <;> rfl
    · exact h1
    · rintro _ _ _ _ _ hc _
      exact h2 hc
    · rintro _ _ hc _
      exact h2 hc

theorem exists_pieces_quoted (cs r : List Char) :
    ∃ ps, pieces? (cs.flatMap escape ++ '"' :: r) = some (ps, r) ∧ textOf? ps = some cs := by
  induction cs with
  | nil => exact ⟨[], rfl, rfl⟩
  | cons c cs ih =>
    obtain ⟨ps, hps, htext⟩ := ih
    obtain ⟨p, hp, hc⟩ := exists_piece_escape c
    refine ⟨p :: ps, ?_, ?_⟩
    · rw [List.flatMap_cons, List.append_assoc, hp, hps]
      rfl
    · rw [hc, htext]
      rfl

/-- Nothing that a number goes on with. -/
def Ends (r : List Char) : Prop :=
  ∀ c ∈ r.head?, ¬ c.isDigit ∧ c ≠ '.' ∧ c ≠ 'e' ∧ c ≠ 'E'

theorem spanDigits_append (hr : Ends r) (cs : List Char) :
    Numeral.spanDigits (cs ++ r) =
      ((Numeral.spanDigits cs).1, (Numeral.spanDigits cs).2 ++ r) := by
  obtain ⟨ds, s, rfl, hspan, hds, hs⟩ := Numeral.exists_digits cs
  have hstop : ∀ c ∈ (s ++ r).head?, ¬ c.isDigit := by
    intro c hc
    cases s with
    | nil => exact (hr c hc).1
    | cons d s => exact hs c hc
  have htake : (s ++ r).takeWhile Char.isDigit = [] ∧ (s ++ r).dropWhile Char.isDigit = s ++ r := by
    cases hcons : s ++ r with
    | nil => exact ⟨rfl, rfl⟩
    | cons c t =>
      have hc := hstop c (by rw [hcons]; rfl)
      exact ⟨List.takeWhile_cons_of_neg hc, List.dropWhile_cons_of_neg hc⟩
  rw [hspan, Numeral.spanDigits, List.span_eq_takeWhile_dropWhile, List.append_assoc,
    List.takeWhile_append_of_pos hds, List.dropWhile_append_of_pos hds, htake.1, htake.2,
    List.append_nil]

theorem wholeDigits?_append {ds s : List Char} (hr : Ends r) (h : wholeDigits? cs = some (ds, s)) :
    wholeDigits? (cs ++ r) = some (ds, s ++ r) := by
  rw [wholeDigits?] at h ⊢
  rw [spanDigits_append hr]
  generalize Numeral.spanDigits cs = p at h
  split at h
  · cases h
  · cases h
  · cases h
    rfl

theorem fractionDigits?_append {fraction : Option (List Char)} {s : List Char} (hr : Ends r)
    (h : fractionDigits? cs = some (fraction, s)) :
    fractionDigits? (cs ++ r) = some (fraction, s ++ r) := by
  unfold fractionDigits? at h
  split at h
  · next t =>
    rw [List.cons_append, fractionDigits?, spanDigits_append hr]
    generalize Numeral.spanDigits t = p at h
    split at h
    · cases h
    · cases h
      rfl
  · next hpoint =>
    cases h
    rw [fractionDigits?]
    rintro t ht
    cases cs with
    | nil => exact (hr '.' (by rw [List.nil_append] at ht; rw [ht]; rfl)).2.1 rfl
    | cons c cs => exact hpoint _ (by rw [(List.cons.inj ht).1])

theorem splitSign_append {c : Char} :
    Numeral.splitSign (c :: cs ++ r) =
      ((Numeral.splitSign (c :: cs)).1, (Numeral.splitSign (c :: cs)).2 ++ r) := by
  by_cases hminus : c = '-'
  · subst hminus
    rfl
  · by_cases hplus : c = '+'
    · subst hplus
      rfl
    · simp [Numeral.splitSign, hminus, hplus]

theorem exponentDigits?_append {exponent : Option ℤ} {s : List Char} (hr : Ends r)
    (h : exponentDigits? cs = some (exponent, s)) :
    exponentDigits? (cs ++ r) = some (exponent, s ++ r) := by
  cases cs with
  | nil =>
    cases h
    cases r with
    | nil => rfl
    | cons c r =>
      have hc := (hr c rfl).2.2
      simp [exponentDigits?, hc]
  | cons c cs =>
    rw [List.cons_append]
    unfold exponentDigits? at h ⊢
    dsimp only at h ⊢
    split at h
    · next hmark =>
      rw [if_pos hmark]
      cases cs with
      | nil => cases h
      | cons d cs =>
        rw [splitSign_append]
        dsimp only
        rw [spanDigits_append hr]
        generalize Numeral.spanDigits (Numeral.splitSign (d :: cs)).2 = p at h
        split at h
        · cases h
        · cases h
          rfl
    · next hmark =>
      cases h
      rw [if_neg hmark]
      rfl

def splitMinus : List Char → Bool × List Char
  | '-' :: r => (true, r)
  | r => (false, r)

theorem number?_eq (cs : List Char) :
    number? cs = (wholeDigits? (splitMinus cs).2).bind fun p => (fractionDigits? p.2).bind fun q =>
      (exponentDigits? q.2).bind fun e =>
        some (numberDocument (splitMinus cs).1 p.1 q.1 e.1, e.2) :=
  rfl

/-- A number goes no further than it does at the end of a text. -/
theorem number?_append {d : Document} (hr : Ends r) (h : number? cs = some (d, [])) :
    number? (cs ++ r) = some (d, r) := by
  cases cs with
  | nil => cases h
  | cons c cs =>
    have hsplit : splitMinus (c :: cs ++ r) =
        ((splitMinus (c :: cs)).1, (splitMinus (c :: cs)).2 ++ r) := by
      by_cases hminus : c = '-'
      · subst hminus
        rfl
      · simp [splitMinus, hminus]
    simp only [number?_eq, Option.bind_eq_some_iff, Option.some.injEq, Prod.mk.injEq] at h
    obtain ⟨⟨whole, s⟩, hwhole, ⟨fraction, s⟩, hfraction, ⟨exponent, s⟩, hexponent, hd, rfl⟩ := h
    rw [number?_eq, hsplit, wholeDigits?_append hr hwhole, Option.bind_some,
      fractionDigits?_append hr hfraction, Option.bind_some,
      exponentDigits?_append hr hexponent, Option.bind_some, hd, List.nil_append]

theorem exists_of_number? {d : Document} (h : number? cs = some (d, r)) :
    ∃ c s, cs = c :: s ∧ (c.isDigit ∨ c = '-') := by
  cases cs with
  | nil => cases h
  | cons c cs =>
    refine ⟨c, cs, rfl, or_iff_not_imp_right.mpr fun hminus => ?_⟩
    by_contra hdigit
    have hwhole : wholeDigits? (splitMinus (c :: cs)).2 = none := by
      have hspan : Numeral.spanDigits (c :: cs) = ([], c :: cs) := by
        rw [Numeral.spanDigits, List.span_eq_takeWhile_dropWhile,
          List.takeWhile_cons_of_neg hdigit, List.dropWhile_cons_of_neg hdigit]
      simp [splitMinus, hminus, wholeDigits?, hspan]
    rw [number?_eq, hwhole] at h
    cases h

theorem le_ofDigitChars (ds : List Char) (n : ℕ) : n ≤ Nat.ofDigitChars 10 ds n := by
  induction ds generalizing n with
  | nil => exact Nat.le_refl n
  | cons c ds ih =>
    rw [Nat.ofDigitChars_cons]
    have := ih (10 * n + (c.toNat - '0'.toNat))
    omega

theorem absorb_eq {ds : List Char} {n : ℕ}
    (h : Nat.ofDigitChars 10 ds n < 0x10000000000000000) :
    absorb n ds = (Nat.ofDigitChars 10 ds n, []) := by
  induction ds generalizing n with
  | nil => rfl
  | cons c ds ih =>
    have hcons : Nat.ofDigitChars 10 (c :: ds) n =
        Nat.ofDigitChars 10 ds (Nat.ofDigitChars 10 [c] n) := by
      rw [Nat.ofDigitChars_cons, Nat.ofDigitChars_cons, Nat.ofDigitChars_nil]
    rw [hcons] at h ⊢
    have hle := le_ofDigitChars ds (Nat.ofDigitChars 10 [c] n)
    rw [absorb, if_pos (by omega), ih h]

theorem number?_toDigits {n : ℕ} (h : n < 0x10000000000000000) :
    number? (Nat.toDigits 10 n) = some (.int n, []) := by
  have hds : ∀ d ∈ Nat.toDigits 10 n, d.isDigit := fun d hd =>
    Nat.isDigit_of_mem_toDigits (by decide) (by decide) hd
  have hvalue : Nat.ofDigitChars 10 (Nat.toDigits 10 n) 0 = n := Nat.ofDigitChars_ten_toDigits
  have hspan : Numeral.spanDigits (Nat.toDigits 10 n) = (Nat.toDigits 10 n, []) := by
    rw [Numeral.spanDigits, List.span_eq_takeWhile_dropWhile, List.takeWhile_eq_self_iff.mpr hds,
      List.dropWhile_eq_nil_iff.mpr hds]
  have hdocument : numberDocument false (Nat.toDigits 10 n) none none = .int n := by
    have habsorb : absorb 0 (Nat.toDigits 10 n) =
        (Nat.ofDigitChars 10 (Nat.toDigits 10 n) 0, []) := absorb_eq (by rwa [hvalue])
    simp [numberDocument, habsorb, hvalue]
  have hwhole : wholeDigits? (Nat.toDigits 10 n) = some (Nat.toDigits 10 n, []) := by
    rw [wholeDigits?, hspan]
    rcases noLeadingZero_toDigits n with hzero | ⟨c, s, hcons, hc⟩
    · rw [hzero]
      rfl
    · rw [hcons]
      simp [hc]
  obtain ⟨c, s, hcons⟩ := (noLeadingZero_toDigits n).exists_cons
  have hminus : splitMinus (Nat.toDigits 10 n) = (false, Nat.toDigits 10 n) := by
    have hc : c ≠ '-' := by
      rintro rfl
      exact absurd (hds '-' (hcons ▸ List.mem_cons_self)) (by decide)
    rw [hcons]
    simp [splitMinus, hc]
  rw [number?_eq, hminus, hwhole]
  simp [fractionDigits?, exponentDigits?, hdocument]

end Engraver.Json
