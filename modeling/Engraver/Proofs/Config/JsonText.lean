import Engraver.Proofs.Config.Documents
import Engraver.Proofs.Json.Indented

/-! # A configuration as JSON

The indented text is read back with the settings it was written with, but that a float which is
not finite was written as `null`, which is no float.
-/

namespace Engraver

open Json

namespace Setting

theorem keepsPlain_toJson : Config.KeepsPlain fun v => v.toJson.document :=
  ⟨fun _ => rfl, fun _ => rfl⟩

theorem float?_toJson (x : Float) :
    (real x).toJson.document.float? = if x.isFinite then some x else none := by
  rw [toJson]
  split <;> rfl

theorem fits_toJson {v : Setting} {depth : ℕ}
    (hreal : ∀ x, v = real x → x.isFinite = true → (Number.float x).ReadsBack)
    (hwhole : ∀ n, v = whole n → n < 0x10000000000000000) : v.toJson.Fits depth := by
  cases v with
  | real x =>
    rw [toJson]
    split
    · next hx => exact hreal x rfl hx
    · trivial
  | whole n =>
    have hread := number?_toDigits (hwhole n rfl)
    change number? (toString (n : ℤ)).toList = some (.int n, [])
    rw [Numeral.toList_toString, if_pos (Int.natCast_nonneg n), Int.natAbs_natCast, hread]
  | text s => trivial

end Setting

namespace Config

variable {c : Config}

theorem fitMembers_map {α : Type} {g : α → Value} {depth : ℕ} {l : List (String × α)}
    (h : ∀ p ∈ l, (g p.2).Fits depth) :
    Value.FitMembers depth (l.map fun p => (p.1, g p.2)) := by
  induction l with
  | nil => trivial
  | cons p l ih =>
    exact ⟨h p List.mem_cons_self, ih fun q hq => h q (List.mem_cons_of_mem _ hq)⟩

theorem memberDocuments_map {α : Type} (g : α → Value) (l : List (String × α)) :
    Value.memberDocuments (l.map fun p => (p.1, g p.2)) =
      l.map fun p => (p.1, (g p.2).document) := by
  induction l with
  | nil => rfl
  | cons p l ih =>
    rw [List.map_cons, Value.memberDocuments, ih]
    rfl

theorem document_toJson (c : Config) :
    c.toJson.document = c.documentBy fun v => v.toJson.document := by
  have hsection (settings : List (String × Setting)) :
      (Value.object (settings.map fun p => (p.1, p.2.toJson))).document =
        .table (settings.map fun p => (p.1, p.2.toJson.document)) := by
    rw [Value.document, memberDocuments_map]
  have hsections := memberDocuments_map (fun settings : List (String × Setting) =>
    Value.object (settings.map fun p => (p.1, p.2.toJson))) c.sections
  simp only [hsection] at hsections
  rw [documentBy, ← hsections]
  rfl

theorem eq_of_isSign {x : Float} (h : isSign x = true) : x = 1.0 ∨ x = -1.0 := by
  rcases Bool.or_eq_true_iff.mp h with h | h
  · exact .inl (Double.eq_of_beq h (.inr (by decide)))
  · obtain ⟨-, -, h | ⟨-, h⟩ | ⟨-, h⟩⟩ := Float.beq_iff_ne_nan_and_eq.mp h
    · exact .inr h
    · exact absurd h (by decide)
    · exact absurd h (by decide)

/-- A float that is written with one place is read by dividing its digits by ten. -/
theorem readsBack_tenths {x : Float} (cs : List Char) (negative : Bool) (n : ℕ)
    (htext : (floatText.render x).toList = cs)
    (hread : number? cs = some (.float (if negative then -divideTen (Float.ofNat n) 1
      else divideTen (Float.ofNat n) 1), []))
    (hx : Binary.ofFloat (if negative then -(Float.ofNat n / powerOfTen 1)
      else Float.ofNat n / powerOfTen 1) = Binary.ofFloat x) : (Number.float x).ReadsBack := by
  have hdivide : divideTen (Float.ofNat n) 1 = Float.ofNat n / powerOfTen 1 := by
    rw [divideTen, if_pos (by decide)]
  rw [hdivide, Double.ofFloat_injective hx] at hread
  change number? (floatText.render x).toList = some (.float x, [])
  rw [htext, hread]

theorem readsBack_sign {x : Float} (h : isSign x = true) : (Number.float x).ReadsBack := by
  rcases eq_of_isSign h with rfl | rfl
  · exact readsBack_tenths ['1', '.', '0'] false 10 (by decide +kernel) rfl (by decide +kernel)
  · exact readsBack_tenths ['-', '1', '.', '0'] true 10 (by decide +kernel) rfl
      (by decide +kernel)

theorem real_mem_sections {x : Float} {s : String × List (String × Setting)}
    {p : String × Setting} (hs : s ∈ c.sections) (hp : p ∈ s.2) (hx : p.2 = .real x) :
    x ∈ c.device.reals ∨ x = c.emulator.signs.x ∨ x = c.emulator.signs.y := by
  simp only [sections, List.mem_cons, List.not_mem_nil, or_false] at hs
  rcases hs with rfl | rfl | rfl <;>
    simp only [List.mem_cons, List.not_mem_nil, or_false] at hp
  · rcases hp with rfl | rfl | rfl | rfl <;> cases hx <;> simp [DeviceSettings.reals]
  · rcases hp with rfl | rfl | rfl <;> cases hx
  · rcases hp with rfl | rfl | rfl <;> cases hx <;> simp

theorem whole_mem_sections {n : ℕ} {s : String × List (String × Setting)}
    {p : String × Setting} (hs : s ∈ c.sections) (hp : p ∈ s.2) (hn : p.2 = .whole n) :
    n = c.server.tcpPort.toNat ∨ n = c.server.readBuffer.toNat := by
  simp only [sections, List.mem_cons, List.not_mem_nil, or_false] at hs
  rcases hs with rfl | rfl | rfl <;>
    simp only [List.mem_cons, List.not_mem_nil, or_false] at hp
  · rcases hp with rfl | rfl | rfl | rfl <;> cases hn
  · rcases hp with rfl | rfl | rfl <;> cases hn <;> simp
  · rcases hp with rfl | rfl | rfl <;> cases hn

theorem document?_toJson (hreal : ∀ x ∈ c.device.reals, x.isFinite = true →
      (Number.float x).ReadsBack)
    (hsigns : isSign c.emulator.signs.x = true ∧ isSign c.emulator.signs.y = true) :
    Json.document? (c.toJson.indented 0) =
      some (c.documentBy fun v => v.toJson.document) := by
  have hfits : c.toJson.Fits 0 := by
    have hsettings : ∀ s ∈ c.sections, ∀ p ∈ s.2, p.2.toJson.Fits 2 := by
      intro s hs p hp
      refine Setting.fits_toJson (fun x hx hfinite => ?_) (fun n hn => ?_)
      · rcases real_mem_sections hs hp hx with hx | rfl | rfl
        · exact hreal x hx hfinite
        · exact readsBack_sign hsigns.1
        · exact readsBack_sign hsigns.2
      · have hport := c.server.tcpPort.toNat_lt
        have hbuffer := c.server.readBuffer.toNat_lt
        rcases whole_mem_sections hs hp hn with rfl | rfl <;> omega
    refine ⟨by decide, ?_⟩
    exact fitMembers_map (g := fun settings : List (String × Setting) =>
      Value.object (settings.map fun p => (p.1, p.2.toJson))) fun s hs =>
        ⟨by decide, fitMembers_map (hsettings s hs)⟩
  rw [document?_indented hfits, document_toJson]

end Config
end Engraver
