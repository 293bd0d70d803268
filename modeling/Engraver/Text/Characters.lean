/-! # Characters

The 25 characters with the white-space property and trimming by them, and digits up to `f` in
either case with the numbers written with them.
-/

namespace Engraver.Text

/-- Closed ranges of code points, ascending and apart. -/
def blankRanges : List (Nat × Nat) :=
  [(0x09, 0x0d), (0x20, 0x20), (0x85, 0x85), (0xa0, 0xa0), (0x1680, 0x1680), (0x2000, 0x200a),
    (0x2028, 0x2029), (0x202f, 0x202f), (0x205f, 0x205f), (0x3000, 0x3000)]

def isBlank (c : Char) : Bool :=
  blankRanges.any fun r => r.1 ≤ c.toNat && c.toNat ≤ r.2

def trim (cs : List Char) : List Char :=
  ((cs.dropWhile isBlank).reverse.dropWhile isBlank).reverse

/-- ASCII letters in lower case, all else as it is. -/
def lower (cs : List Char) : List Char :=
  cs.map Char.toLower

def digitValue? (c : Char) : Option Nat :=
  if '0' ≤ c ∧ c ≤ '9' then some (c.toNat - '0'.toNat)
  else if 'a' ≤ c ∧ c ≤ 'f' then some (c.toNat - 'a'.toNat + 10)
  else if 'A' ≤ c ∧ c ≤ 'F' then some (c.toNat - 'A'.toNat + 10)
  else none

def number? (base : Nat) (cs : List Char) : Option Nat :=
  let next (n : Nat) (c : Char) : Option Nat :=
    (digitValue? c).bind fun d => if d < base then some (base * n + d) else none
  cs.foldlM next 0

def hexNumber? (cs : List Char) : Option Nat :=
  number? 16 cs

def hexDigit (n : Nat) : Char :=
  Nat.digitChar (n % 16)

def hexOfBytes (bs : List UInt8) : List Char :=
  bs.flatMap fun b => [hexDigit (b.toNat / 16), hexDigit b.toNat]

def bytesOfHex? : List Char → Option (List UInt8)
  | [] => some []
  | a :: b :: r => do
    let n ← hexNumber? [a, b]
    let bs ← bytesOfHex? r
    some (.ofNat n :: bs)
  | [_] => none

theorem digitValue?_hexDigit (n : Nat) : digitValue? (hexDigit n) = some (n % 16) := by
  have h : ∀ d < 16, digitValue? (Nat.digitChar d) = some d := by decide
  exact h _ (Nat.mod_lt n (by decide))

theorem digitValue?_toUpper_hexDigit (n : Nat) :
    digitValue? (hexDigit n).toUpper = some (n % 16) := by
  have h : ∀ d < 16, digitValue? (Nat.digitChar d).toUpper = some d := by decide
  exact h _ (Nat.mod_lt n (by decide))

theorem hexNumber?_byte {a b : Char} {n : Nat} (ha : digitValue? a = some (n / 16 % 16))
    (hb : digitValue? b = some (n % 16)) : hexNumber? ['0', '0', a, b] = some (n % 256) := by
  have hzero : digitValue? '0' = some 0 := by decide
  have hlt (k : Nat) : k % 16 < 16 := Nat.mod_lt k (by decide)
  have hsum : 16 * (n / 16 % 16) + n % 16 = n % 256 := by omega
  simp [hexNumber?, number?, ha, hb, hzero, hlt, hsum]

end Engraver.Text
