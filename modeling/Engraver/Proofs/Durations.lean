import Engraver.Proofs.Number.ShortestText
import Engraver.Proofs.Number.Values
import Engraver.Units

/-! # Durations as text

A duration is written with the hours, minutes and seconds of its whole seconds, and these can be
read back from the text. So two durations have one text exactly if they have the same whole seconds.
Only durations that are not finite have no such text.
-/

namespace Engraver

theorem Fixed.length_padded {width n : ℕ} (h0 : 0 < width) (h : n < 10 ^ width) :
    (padded width n).length = width := by
  have hdigits := (Nat.length_toDigits_le_iff (by decide) h0).mpr h
  rw [padded, List.length_append, List.length_replicate]
  omega

namespace Duration

/-- The seconds of a finite duration without their fraction. Below zero they are zero, and more than
64 bits hold are as many as these hold. -/
def whole (s : Float) : ℕ :=
  min ⌊(Binary.ofFloat s).value?.getD 0⌋₊ (2 ^ 64 - 1)

def seconds? (text : String) : Option ℕ :=
  match text.toList.splitOnP (· = ':') with
  | [h, m, s] => some (3600 * Numeral.value h + 60 * Numeral.value m + Numeral.value s)
  | _ => none

/-- Two digits below sixty. -/
structure IsSixtieth (ds : List Char) : Prop where
  digits : ∀ c ∈ ds, c.isDigit
  length : ds.length = 2
  lt : Numeral.value ds < 60

/-- A text `H:MM:SS`, with no needless zero in front of the hours. -/
structure ClockText (text : String) (h m s : List Char) : Prop where
  cut : text.toList = h ++ ':' :: (m ++ ':' :: s)
  hours_digits : ∀ c ∈ h, c.isDigit
  hours_lead : NoLeadingZero h
  minutes : IsSixtieth m
  seconds : IsSixtieth s

theorem isSixtieth_padded {n : ℕ} (h : n < 60) : IsSixtieth (Fixed.padded 2 n) where
  digits := fun _ => Fixed.isDigit_of_mem_padded
  length := Fixed.length_padded (by decide) (by omega)
  lt := by rwa [Fixed.value_padded]

theorem clockText_clock (n : ℕ) :
    ClockText (String.ofList (clock n)) (Nat.toDigits 10 (n / 3600))
      (Fixed.padded 2 (n / 60 % 60)) (Fixed.padded 2 (n % 60)) where
  cut := by simp [clock]
  hours_digits := fun _ => Nat.isDigit_of_mem_toDigits (by decide) (by decide)
  hours_lead := noLeadingZero_toDigits _
  minutes := isSixtieth_padded (Nat.mod_lt _ (by decide))
  seconds := isSixtieth_padded (Nat.mod_lt _ (by decide))

theorem ne_colon_of_isDigit {ds : List Char} (h : ∀ c ∈ ds, c.isDigit) :
    ∀ c ∈ ds, decide (c = ':') = false := by
  intro c hc
  refine decide_eq_false fun heq => ?_
  rw [heq] at hc
  exact absurd (h ':' hc) (by decide)

theorem ClockText.seconds?_eq {text : String} {h m s : List Char} (ht : ClockText text h m s) :
    seconds? text = some (3600 * Numeral.value h + 60 * Numeral.value m + Numeral.value s) := by
  rw [seconds?, ht.cut,
    List.splitOnP_append_cons_of_forall_mem (ne_colon_of_isDigit ht.hours_digits) ':' rfl,
    List.splitOnP_append_cons_of_forall_mem (ne_colon_of_isDigit ht.minutes.digits) ':' rfl,
    List.splitOnP_eq_singleton (ne_colon_of_isDigit ht.seconds.digits)]

theorem sum_clock (n : ℕ) :
    3600 * Numeral.value (Nat.toDigits 10 (n / 3600)) +
      60 * Numeral.value (Fixed.padded 2 (n / 60 % 60)) + Numeral.value (Fixed.padded 2 (n % 60)) =
        n := by
  have hhours : Numeral.value (Nat.toDigits 10 (n / 3600)) = n / 3600 :=
    Nat.ofDigitChars_ten_toDigits
  rw [hhours, Fixed.value_padded, Fixed.value_padded]
  omega

theorem seconds?_clock (n : ℕ) : seconds? (String.ofList (clock n)) = some n := by
  rw [(clockText_clock n).seconds?_eq, sum_clock]

theorem clock_injective {m n : ℕ} (h : String.ofList (clock m) = String.ofList (clock n)) :
    m = n := by
  have hread := congrArg seconds? h
  rw [seconds?_clock, seconds?_clock] at hread
  exact Option.some.inj hread

variable {s t : Float}

theorem exists_value? (h : s.isFinite) : ∃ v, (Binary.ofFloat s).value? = some v :=
  Option.isSome_iff_exists.mp ((Double.isSome_value? s).trans h)

theorem isFinite_ofFloat (s : Float) : (Binary.ofFloat s).isFinite = s.isFinite := by
  rw [← Double.isSome_value?]
  cases Binary.ofFloat s <;> rfl

theorem wholeSeconds_eq_whole (h : s.isFinite) : wholeSeconds (Binary.ofFloat s) = whole s := by
  obtain ⟨v, hv⟩ := exists_value? h
  have hfloor := toNat_towardZero v
  rw [wholeSeconds, Binary.saturate_eq hv, whole, hv, Option.getD_some, ← hfloor]
  simp only [IntRange.uint64]
  omega

theorem format_eq_clock (h : s.isFinite) : format s = String.ofList (clock (whole s)) := by
  simp only [format, isFinite_ofFloat, h, if_true, wholeSeconds_eq_whole h]

theorem format_eq_endless_iff : format s = "∞" ↔ ¬ s.isFinite := by
  constructor
  · intro h hs
    have hnone : seconds? "∞" = none := by decide
    have hread := seconds?_clock (whole s)
    rw [← format_eq_clock hs, h, hnone] at hread
    cases hread
  · intro h
    simp only [format, isFinite_ofFloat, if_neg h]

theorem not_isFinite_iff : ¬ s.isFinite ↔ s.isNaN ∨ s.isInf := by
  change ¬ s.toModel.unpack.isFinite = true ↔
    s.toModel.unpack.isNaN = true ∨ s.toModel.unpack.isInf = true
  cases s.toModel.unpack <;> simp [Float.Model.UnpackedFloat.isFinite,
    Float.Model.UnpackedFloat.isNaN, Float.Model.UnpackedFloat.isInf]

theorem whole_mono (hs : s.isFinite) (ht : t.isFinite) (h : s ≤ t) : whole s ≤ whole t := by
  obtain ⟨v, hv⟩ := exists_value? hs
  obtain ⟨w, hw⟩ := exists_value? ht
  rw [whole, whole, hv, hw]
  exact min_le_min_right _ (Nat.floor_le_floor ((Double.le_iff hv hw).mp h))

/-- A finite duration is written as `H:MM:SS` with its whole seconds, which are read back from the
text. Finite durations have the same text exactly if they have the same whole seconds, and a longer
one has no fewer of them. Infinite durations and those that are not numbers, and no others, are
written as endless. -/
theorem format_reads_back :
    (∀ s : Float, s.isFinite →
      (∃ h m sec, ClockText (format s) h m sec ∧
        3600 * Numeral.value h + 60 * Numeral.value m + Numeral.value sec = whole s) ∧
      seconds? (format s) = some (whole s)) ∧
    (∀ s t : Float, s.isFinite → t.isFinite →
      (format s = format t ↔ whole s = whole t) ∧ (s ≤ t → whole s ≤ whole t)) ∧
    ∀ s : Float, format s = "∞" ↔ s.isNaN ∨ s.isInf := by
  refine ⟨fun s hs => ?_, fun s t hs ht => ⟨?_, whole_mono hs ht⟩, fun s => ?_⟩
  · rw [format_eq_clock hs]
    exact ⟨⟨_, _, _, clockText_clock _, sum_clock _⟩, seconds?_clock _⟩
  · rw [format_eq_clock hs, format_eq_clock ht]
    exact ⟨clock_injective, fun h => by rw [h]⟩
  · rw [format_eq_endless_iff, not_isFinite_iff]

theorem format_reads_back_noon :
    let s : Float := 43205.9
    let t : Float := 1e20
    s.isFinite ∧ t.isFinite ∧ s ≤ t ∧ format s = "12:00:05" ∧ whole s = 43205 ∧
      format t = "5124095576030431:00:15" ∧ whole t = 2 ^ 64 - 1 ∧ whole s ≤ whole t ∧
      format s ≠ format t := by
  intro s t
  have hs : s.isFinite := by decide
  have ht : t.isFinite := by decide +kernel
  have hle : s ≤ t := by decide +kernel
  have hsText : format s = "12:00:05" := by decide +kernel
  have htText : format t = "5124095576030431:00:15" := by decide +kernel
  obtain ⟨hread, hcompare, -⟩ := format_reads_back
  have hsWhole := (hread s hs).2
  have htWhole := (hread t ht).2
  rw [hsText, show seconds? "12:00:05" = some 43205 by decide +kernel] at hsWhole
  rw [htText, show seconds? "5124095576030431:00:15" = some (2 ^ 64 - 1) by decide +kernel]
    at htWhole
  refine ⟨hs, ht, hle, hsText, (Option.some.inj hsWhole).symm, htText,
    (Option.some.inj htWhole).symm, (hcompare s t hs ht).2 hle, ?_⟩
  rw [hsText, htText]
  decide

end Duration
end Engraver
