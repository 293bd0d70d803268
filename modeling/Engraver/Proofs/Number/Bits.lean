import Mathlib
import Engraver.Number.Binary

/-! # The bits of a double

What is read off the bits of a double is its unpacked form, and a double is determined by it. Every
mantissa and exponent of the format is that of a double. Doubles that compare equal are the same as
soon as one of them is positive, and adding zero changes nothing but the sign of negative zero.
-/

namespace Engraver.Double

open Float.Model Float.Model.UnpackedFloat

section

variable {a b : Float}

theorem eq_of_beq (h : a == b) (hp : 0.0 < a ∨ 0.0 < b) : a = b := by
  obtain ⟨-, -, h | ⟨rfl, rfl⟩ | ⟨rfl, rfl⟩⟩ := Float.beq_iff_ne_nan_and_eq.mp h
  · exact h
  · exact absurd hp (by decide)
  · exact absurd hp (by decide)

theorem eq_neg_zero_of_unpack (h : a.toModel.unpack = .zero .negative) : a = -0.0 :=
  Float.toBits_inj.mp (UInt64.toBitVec_inj.mp
    ((unpack_eq_zero_iff_of_valid a.toModel.valid).mp h))

theorem pack_unpack_toModel (a : Float) : Float.ofModel (.pack a.toModel.unpack) = a := by
  obtain ⟨⟨b, hv⟩⟩ := a
  simp only [Float.Model.pack, Float.Model.unpack, pack_unpack_of_valid hv]

theorem add_zero_eq_iff : a + 0.0 = a ↔ a ≠ -0.0 := by
  constructor
  · rintro h rfl
    exact absurd h (by decide)
  · intro h
    have hadd : UnpackedFloat.add .binary64 a.toModel.unpack (.zero .positive) =
        a.toModel.unpack := by
      cases hu : a.toModel.unpack with
      | zero s =>
        cases s with
        | positive => rfl
        | negative => exact absurd (eq_neg_zero_of_unpack hu) h
      | _ => rfl
    calc a + 0.0
        = Float.ofModel (.pack (UnpackedFloat.add .binary64 a.toModel.unpack (.zero .positive))) :=
          rfl
      _ = Float.ofModel (.pack a.toModel.unpack) := by rw [hadd]
      _ = a := pack_unpack_toModel a

end

/-- The exponents and mantissas of finite doubles. -/
structure Canonical (m : ℕ) (q : ℤ) : Prop where
  lt : m < 2 ^ 53
  ge : -1074 ≤ q
  le : q ≤ 971
  full : 2 ^ 52 ≤ m ∨ q = -1074

def isNegative : Sign → Bool
  | .negative => true
  | .positive => false

def ofUnpacked : UnpackedFloat → Binary
  | .notANumber => .nan
  | .infinity s => .infinite (isNegative s)
  | .zero s => .finite (isNegative s) 0 (-1074)
  | .finite s m e _ => .finite (isNegative s) m e

theorem toNat_unpackExponent (b : BitVec 64) :
    (@unpackExponent .binary64 b).toNat = b.toNat / 2 ^ 52 % 2 ^ 11 := by
  rw [unpackExponent_def, BitVec.extractLsb'_toNat, Nat.shiftRight_eq_div_pow]

theorem toNat_unpackMantissa (b : BitVec 64) :
    (@unpackMantissa .binary64 b).toNat = b.toNat % 2 ^ 52 := by
  rw [unpackMantissa_def, BitVec.extractLsb'_toNat, Nat.shiftRight_zero]

theorem isNegative_unpackSign (n : UInt64) :
    isNegative (.ofBitVec (@unpackSign .binary64 n.toBitVec)) = (n >>> 63 == 1) := by
  have hbit : (@unpackSign .binary64 n.toBitVec).toNat = n.toNat / 2 ^ 63 := by
    rw [unpackSign_def, BitVec.extractLsb'_toNat, Nat.shiftRight_eq_div_pow]
    have := n.toNat_lt
    change n.toNat / 2 ^ 63 % 2 ^ 1 = n.toNat / 2 ^ 63
    omega
  have hshift : (n >>> 63).toNat = n.toNat / 2 ^ 63 := by
    rw [UInt64.toNat_shiftRight, Nat.shiftRight_eq_div_pow]
    rfl
  have hlt := n.toNat_lt
  unfold Sign.ofBitVec
  split
  · next h =>
    rw [h] at hbit
    refine (beq_eq_false_iff_ne.mpr fun h1 => ?_).symm
    rw [h1] at hshift
    rw [← hshift] at hbit
    cases hbit
  · next h =>
    have hne : (@unpackSign .binary64 n.toBitVec).toNat ≠ 0 := fun h0 =>
      h (BitVec.eq_of_toNat_eq h0)
    refine (beq_iff_eq.mpr (UInt64.toNat_inj.mp ?_)).symm
    rw [hshift]
    change n.toNat / 2 ^ 63 = 1
    omega

theorem exponentBits_toNat (n : UInt64) :
    ((n >>> 52) &&& 0x7ff).toNat = n.toNat / 2 ^ 52 % 2 ^ 11 := by
  rw [UInt64.toNat_and, UInt64.toNat_shiftRight]
  exact (Nat.and_two_pow_sub_one_eq_mod _ 11).trans (by rw [Nat.shiftRight_eq_div_pow]; rfl)

theorem mantissaBits_toNat (n : UInt64) :
    (n &&& 0xfffffffffffff).toNat = n.toNat % 2 ^ 52 := by
  rw [UInt64.toNat_and]
  exact Nat.and_two_pow_sub_one_eq_mod _ 52

theorem toNat_append_one (m : BitVec 52) : (1#1 ++ m).toNat = 2 ^ 52 + m.toNat := by
  rw [BitVec.toNat_append, ← Nat.shiftLeft_add_eq_or_of_lt m.isLt]
  rfl

def ofFields (negative : Bool) (e f : ℕ) : Binary :=
  if e = 0x7ff then
    if f = 0 then .infinite negative else .nan
  else if e = 0 then .finite negative f (-1074)
  else .finite negative (0x10000000000000 + f) (e - 1075)

theorem ofUnpacked_unpack (b : BitVec 64) :
    ofUnpacked (UnpackedFloat.unpack .binary64 b) =
      ofFields (isNegative (.ofBitVec (@unpackSign .binary64 b)))
        (@unpackExponent .binary64 b).toNat (@unpackMantissa .binary64 b).toNat := by
  unfold UnpackedFloat.unpack ofFields
  set E : BitVec 11 := @unpackExponent .binary64 b
  set M : BitVec 52 := @unpackMantissa .binary64 b
  dsimp only
  have hE : E = -1#11 ↔ E.toNat = 0x7ff := ⟨fun h => h ▸ rfl, fun h => BitVec.eq_of_toNat_eq h⟩
  have hE0 : E = 0#11 ↔ E.toNat = 0 := ⟨fun h => h ▸ rfl, fun h => BitVec.eq_of_toNat_eq h⟩
  have hM0 : M = 0#52 ↔ M.toNat = 0 := ⟨fun h => h ▸ rfl, fun h => BitVec.eq_of_toNat_eq h⟩
  by_cases h1 : E = -1#11
  · rw [if_pos (hE.mp h1), if_pos h1]
    by_cases h2 : M = 0#52
    · rw [if_pos (hM0.mp h2), if_pos h2]
      rfl
    · rw [if_neg (mt hM0.mpr h2), if_neg h2]
      rfl
  · rw [if_neg (mt hE.mpr h1), if_neg h1]
    by_cases h2 : E = 0#11
    · rw [if_pos (hE0.mp h2), if_pos h2]
      by_cases h3 : M = 0#52
      · rw [dif_pos h3, hM0.mp h3]
        rfl
      · rw [dif_neg h3, h2]
        rfl
    · rw [if_neg (mt hE0.mpr h2), if_neg h2]
      simp only [ofUnpacked, toNat_append_one]
      rfl

theorem ofFloat_eq_ofUnpacked (x : Float) : Binary.ofFloat x = ofUnpacked x.toModel.unpack := by
  obtain ⟨⟨n, hv⟩⟩ := x
  calc Binary.ofBits n
      = ofFields (n >>> 63 == 1) ((n >>> 52) &&& 0x7ff).toNat (n &&& 0xfffffffffffff).toNat := rfl
    _ = ofUnpacked (UnpackedFloat.unpack .binary64 n.toBitVec) := by
      rw [exponentBits_toNat, mantissaBits_toNat, ← isNegative_unpackSign, ofUnpacked_unpack,
        toNat_unpackExponent, toNat_unpackMantissa, UInt64.toNat_toBitVec]

theorem isNegative_injective {s t : Sign} (h : isNegative s = isNegative t) : s = t := by
  cases s <;> cases t <;> first | rfl | cases h

theorem ofUnpacked_injective {u v : UnpackedFloat} (h : ofUnpacked u = ofUnpacked v) : u = v := by
  cases u <;> cases v <;> simp only [ofUnpacked, Binary.infinite.injEq, Binary.finite.injEq,
    reduceCtorEq] at h
  case infinity.infinity s t => rw [isNegative_injective h]
  case notANumber.notANumber => rfl
  case zero.zero s t => rw [isNegative_injective h.1]
  case zero.finite hm => omega
  case finite.zero hm _ => omega
  case finite.finite =>
    obtain ⟨hs, rfl, rfl⟩ := h
    rw [isNegative_injective hs]

theorem ofFloat_injective {x y : Float} (h : Binary.ofFloat x = Binary.ofFloat y) : x = y := by
  rw [ofFloat_eq_ofUnpacked, ofFloat_eq_ofUnpacked] at h
  rw [← pack_unpack_toModel x, ofUnpacked_injective h, pack_unpack_toModel]

theorem isInf_eq_false {x : Float} (h : (Binary.ofFloat x).isFinite = true) : x.isInf = false := by
  rw [ofFloat_eq_ofUnpacked] at h
  change x.toModel.unpack.isInf = false
  cases hu : x.toModel.unpack <;> rw [hu] at h <;> first | rfl | cases h

theorem canonical_of_ofFloat {x : Float} {negative : Bool} {m : ℕ} {q : ℤ}
    (h : Binary.ofFloat x = .finite negative m q) : Canonical m q := by
  have hexp := exponentBits_toNat x.toBits
  have hman := mantissaBits_toNat x.toBits
  unfold Binary.ofFloat Binary.ofBits at h
  rw [hexp, hman] at h
  dsimp only at h
  split at h
  · split at h <;> cases h
  · next hE =>
    split at h <;> cases h
    · exact ⟨by omega, le_rfl, by decide, .inr rfl⟩
    · next hE0 => exact ⟨by omega, by omega, by omega, .inl (by omega)⟩

theorem sign_toBitVec (s : Sign) : Sign.ofBitVec s.toBitVec = s := by
  cases s <;> rfl

theorem ofFloat_packComponents {u : UnpackedFloat} {s : Sign} {E : BitVec 11} {M : BitVec 52}
    (h : UnpackedFloat.pack .binary64 u = packComponents .binary64 s E M) :
    Binary.ofFloat (.ofModel (.pack u)) = ofFields (isNegative s) E.toNat M.toNat := by
  calc Binary.ofFloat (.ofModel (.pack u))
      = ofUnpacked (UnpackedFloat.unpack .binary64 (UnpackedFloat.pack .binary64 u)) :=
        ofFloat_eq_ofUnpacked _
    _ = ofFields (isNegative s) E.toNat M.toNat := by
      rw [h, ofUnpacked_unpack, unpackExponent_packComponents, unpackMantissa_packComponents,
        unpackSign_packComponents, sign_toBitVec]

theorem ofFloat_pack_zero (s : Sign) :
    Binary.ofFloat (.ofModel (.pack (.zero s))) = .finite (isNegative s) 0 (-1074) :=
  ofFloat_packComponents (s := s) (E := 0) (M := 0) rfl

theorem ofFloat_pack_of_lt (s : Sign) {m : ℕ} {q : ℤ} (hm : 0 < m) (h : 971 < q) :
    Binary.ofFloat (.ofModel (.pack (.finite s m q hm))) = .infinite (isNegative s) := by
  refine ofFloat_packComponents (s := s) (E := -1#11) (M := 0) ?_
  have hbias : 2 ^ 11 ≤ (q + 1023 + 52).toNat + 1 := by omega
  exact if_pos hbias

theorem ofFloat_pack_finite (s : Sign) {m : ℕ} {q : ℤ} (hm : 0 < m) (h : Canonical m q) :
    Binary.ofFloat (.ofModel (.pack (.finite s m q hm))) = .finite (isNegative s) m q := by
  have hge := h.ge
  have hle := h.le
  have hbias : ¬ 2 ^ 11 ≤ (q + 1023 + 52).toNat + 1 := by omega
  by_cases hfull : 2 ^ 52 ≤ m
  · have hlog : m.log2 + 1 = 53 := by
      rw [(Nat.log2_eq_iff hm.ne').mpr ⟨hfull, h.lt⟩]
    have hpack : UnpackedFloat.pack .binary64 (.finite s m q hm) =
        packComponents .binary64 s (BitVec.ofNat 11 (q + 1023 + 52).toNat) (BitVec.ofNat 52 m) :=
      (if_neg hbias).trans (if_pos hlog)
    have hE : (q + 1023 + 52).toNat % 2 ^ 11 = (q + 1023 + 52).toNat :=
      Nat.mod_eq_of_lt (by omega)
    have hM : 0x10000000000000 + m % 2 ^ 52 = m := by
      have := h.lt
      omega
    rw [ofFloat_packComponents hpack, BitVec.toNat_ofNat, BitVec.toNat_ofNat, hE, ofFields,
      if_neg (by omega), if_neg (by omega), hM]
    congr 1
    omega
  · have hlog : ¬ m.log2 + 1 = 53 := by
      have := (Nat.log2_lt hm.ne').mpr (Nat.lt_of_not_le hfull)
      omega
    have hpack : UnpackedFloat.pack .binary64 (.finite s m q hm) =
        packComponents .binary64 s 0#11 (BitVec.ofNat 52 m) :=
      (if_neg hbias).trans (if_neg hlog)
    have hM : (BitVec.ofNat 52 m).toNat = m := by
      rw [BitVec.toNat_ofNat, Nat.mod_eq_of_lt (Nat.lt_of_not_le hfull)]
    rw [ofFloat_packComponents hpack, hM, h.full.resolve_left hfull]
    rfl

end Engraver.Double
