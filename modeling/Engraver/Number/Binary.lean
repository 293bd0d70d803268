/-! # The exact value of a float

A 64-bit float is read off its bits as not-a-number, an infinity, or `±m * 2 ^ q`.
Truncation and saturation to integers of a fixed width are computed on that value, so both are
exact.
-/

namespace Engraver

/-- The integers from `lo` and below `hi`. -/
structure IntRange where
  lo : Int
  hi : Int
  deriving DecidableEq, Repr

namespace IntRange

def contains (r : IntRange) (n : Int) : Bool :=
  r.lo ≤ n && n < r.hi

def uint8 : IntRange := ⟨0, 0x100⟩
def uint16 : IntRange := ⟨0, 0x10000⟩
def uint32 : IntRange := ⟨0, 0x100000000⟩
def uint64 : IntRange := ⟨0, 0x10000000000000000⟩
def int32 : IntRange := ⟨-0x80000000, 0x80000000⟩
def int64 : IntRange := ⟨-0x8000000000000000, 0x8000000000000000⟩

theorem contains_iff {r : IntRange} {n : Int} : r.contains n = true ↔ r.lo ≤ n ∧ n < r.hi := by
  simp [contains]

end IntRange

def twoPow (n : Nat) : Nat :=
  Nat.pow 2 n

def tenPow (n : Nat) : Nat :=
  Nat.pow 10 n

theorem twoPow_pos (n : Nat) : 0 < twoPow n :=
  Nat.pow_pos (by decide)

@[simp] theorem twoPow_zero : twoPow 0 = 1 := rfl

@[simp] theorem tenPow_zero : tenPow 0 = 1 := rfl

inductive Binary where
  | nan
  | infinite (negative : Bool)
  /-- `±m * 2 ^ q` -/
  | finite (negative : Bool) (m : Nat) (q : Int)
  deriving DecidableEq, Repr

namespace Binary

def ofBits (bits : UInt64) : Binary :=
  let negative := bits >>> 63 == 1
  let e := ((bits >>> 52) &&& 0x7ff).toNat
  let f := (bits &&& 0xfffffffffffff).toNat
  if e = 0x7ff then
    if f = 0 then .infinite negative else .nan
  else if e = 0 then .finite negative f (-1074)
  else .finite negative (0x10000000000000 + f) (e - 1075)

def ofFloat (x : Float) : Binary :=
  ofBits x.toBits

def isFinite : Binary → Bool
  | finite .. => true
  | _ => false

def whole (m : Nat) (q : Int) : Nat :=
  m * twoPow q.toNat / twoPow (-q).toNat

def trunc? : Binary → Option Int
  | finite negative m q => some (if negative then -(whole m q : Int) else whole m q)
  | _ => none

/-- The value rounded toward zero and brought into a range; not-a-number gives zero. -/
def saturate (r : IntRange) : Binary → Int
  | nan => 0
  | infinite true => r.lo
  | infinite false => r.hi - 1
  | finite negative m q =>
    max r.lo (min (r.hi - 1) (if negative then -(whole m q : Int) else whole m q))

def isInteger : Binary → Bool
  | finite _ m q => m * twoPow q.toNat % twoPow (-q).toNat == 0
  | _ => false

theorem contains_saturate {r : IntRange} (h0 : r.lo ≤ 0) (h1 : 0 < r.hi) (b : Binary) :
    r.contains (b.saturate r) = true := by
  rw [IntRange.contains_iff]
  cases b with
  | nan => exact ⟨h0, h1⟩
  | infinite n => cases n <;> simp only [saturate] <;> omega
  | finite n m q => simp only [saturate]; omega

end Binary
end Engraver
