import Engraver.Number.Binary

/-! # How a float is written

The reals that round to a finite float form an interval around it, with its ends when the mantissa
is even. The shortest decimal lies on the coarsest power-of-ten grid that meets the interval and is
the grid point nearest to the float. One style record holds the decisions of a format; `render` lays
out the shortest decimal by it. With a fixed number of places the exact value is rounded to the
nearest multiple of the last place, an exact half to the even one. The sign of the value stays, also
when it rounds to zero.
-/

namespace Engraver

structure Decimal where
  digits : Nat
  exponent : Int
  deriving DecidableEq, Repr

inductive Tie where
  | even
  | up
  deriving DecidableEq, Repr

namespace Decimal

def compareScaled (a : Nat) (i : Int) (n : Nat) (j : Int) : Ordering :=
  compare (a * tenPow i.toNat * twoPow (-j).toNat)
    (n * twoPow j.toNat * tenPow (-i).toNat)

/-- The float below `m * 2 ^ q` is half as far away as the one above. -/
def narrowBelow (m : Nat) (q : Int) : Bool :=
  m == 0x10000000000000 && decide (-1074 < q)

/-- The decimal lies among the reals that round to `m * 2 ^ q`. -/
def readsBack (m : Nat) (q : Int) (d : Decimal) : Bool :=
  let lo := if narrowBelow m q then 4 * m - 1 else 4 * m - 2
  let hi := 4 * m + 2
  let closed := m % 2 == 0
  let below := compareScaled d.digits d.exponent lo (q - 2)
  let above := compareScaled d.digits d.exponent hi (q - 2)
  (below == .gt || (closed && below == .eq)) && (above == .lt || (closed && above == .eq))

/-- The least `k` with `m * 2 ^ q < 10 ^ k`, looked for upwards from an estimate. -/
def magnitude (m : Nat) (q : Int) : Int :=
  let start := ((m.log2 : Int) + q) * 30103 / 100000 - 1
  let rec climb : Nat → Int → Int
    | 0, k => k
    | n + 1, k => if compareScaled 1 k m q == .gt then k else climb n (k + 1)
  climb 4 start

def gridFloor (m : Nat) (q e : Int) : Nat :=
  (m * twoPow q.toNat * tenPow (-e).toNat) / (twoPow (-q).toNat * tenPow e.toNat)

/-- The point of the grid `10 ^ e` that reads back, of two the nearer. -/
def onGrid? (tie : Tie) (m : Nat) (q e : Int) : Option Decimal :=
  let low : Decimal := ⟨gridFloor m q e, e⟩
  let high : Decimal := ⟨gridFloor m q e + 1, e⟩
  match low.readsBack m q, high.readsBack m q with
  | false, false => none
  | true, false => some low
  | false, true => some high
  | true, true =>
    match compareScaled (2 * low.digits + 1) e (2 * m) q, tie with
    | .gt, _ => some low
    | .lt, _ => some high
    | .eq, .up => some high
    | .eq, .even => some (if low.digits % 2 == 0 then low else high)

def stripZeros : Nat → Decimal → Decimal
  | 0, d => d
  | n + 1, d => if d.digits % 10 == 0 then stripZeros n ⟨d.digits / 10, d.exponent + 1⟩ else d

def exact (m : Nat) (q : Int) : Decimal :=
  if 0 ≤ q then ⟨m * twoPow q.toNat, 0⟩ else ⟨m * Nat.pow 5 (-q).toNat, q⟩

/-- The shortest decimal that reads back as `m * 2 ^ q`, for positive `m`. -/
def shortest (tie : Tie) (m : Nat) (q : Int) : Decimal :=
  let k := magnitude m q
  let found := (List.range 17).findSome? fun (i : Nat) =>
    onGrid? tie m q (k - (i + 1 : Nat))
  stripZeros 17 (found.getD (exact m q))

end Decimal

/-- The decisions of a format that writes floats. -/
structure FloatText where
  /-- the exponents of the leading digit, from and below, that are written without an exponent -/
  positional : Option (Int × Int)
  pointZero : Bool
  plusSign : Bool
  tie : Tie
  nan : String
  infinite : String
  negativeInfinite : String

namespace FloatText

/-- Reports and messages: never an exponent, no trailing point. -/
def plain : FloatText where
  positional := none
  pointZero := false
  plusSign := false
  tie := .up
  nan := "NaN"
  infinite := "inf"
  negativeInfinite := "-inf"

/-- Optional settings in messages: a whole value keeps `.0`, far magnitudes take an exponent. -/
def setting : FloatText where
  positional := some (-4, 16)
  pointZero := true
  plusSign := false
  tie := .up
  nan := "NaN"
  infinite := "inf"
  negativeInfinite := "-inf"

def zeros (n : Nat) : List Char :=
  List.replicate n '0'

def layPositional (t : FloatText) (ds : List Char) (e : Int) : List Char :=
  if e < 0 then '0' :: '.' :: zeros ((-e).toNat - 1) ++ ds
  else
    let n := e.toNat + 1
    if ds.length ≤ n then
      ds ++ zeros (n - ds.length) ++ (if t.pointZero then ['.', '0'] else [])
    else ds.take n ++ '.' :: ds.drop n

def layScientific (t : FloatText) (ds : List Char) (e : Int) : List Char :=
  let mantissa := match ds with
    | [] => []
    | [d] => [d]
    | d :: r => d :: '.' :: r
  let sign := if e < 0 then ['-'] else if t.plusSign then ['+'] else []
  mantissa ++ 'e' :: sign ++ Nat.toDigits 10 e.natAbs

def layout (t : FloatText) (d : Decimal) : List Char :=
  let ds := Nat.toDigits 10 d.digits
  let e := d.exponent + ds.length - 1
  match t.positional with
  | none => t.layPositional ds e
  | some (lo, hi) => if lo ≤ e && e < hi then t.layPositional ds e else t.layScientific ds e

def renderBinary (t : FloatText) : Binary → String
  | .nan => t.nan
  | .infinite negative => if negative then t.negativeInfinite else t.infinite
  | .finite negative m q =>
    let body := if m = 0 then t.layPositional ['0'] 0 else t.layout (Decimal.shortest t.tie m q)
    String.ofList (if negative then '-' :: body else body)

def render (t : FloatText) (x : Float) : String :=
  t.renderBinary (.ofFloat x)

end FloatText

def plainFloat (x : Float) : String :=
  FloatText.plain.render x

namespace Fixed

def roundEven (n d : Nat) : Nat :=
  let k := n / d
  match compare (2 * (n % d)) d with
  | .lt => k
  | .gt => k + 1
  | .eq => if k % 2 == 0 then k else k + 1

def padded (width n : Nat) : List Char :=
  let ds := Nat.toDigits 10 n
  List.replicate (width - ds.length) '0' ++ ds

def pointed (places n : Nat) : List Char :=
  let ds := padded (places + 1) n
  ds.take (ds.length - places) ++ '.' :: ds.drop (ds.length - places)

def renderBinary (places : Nat) : Binary → String
  | .nan => "NaN"
  | .infinite negative => if negative then "-inf" else "inf"
  | .finite negative m q =>
    let body := pointed places
      (roundEven (m * twoPow q.toNat * tenPow places) (twoPow (-q).toNat))
    String.ofList (if negative then '-' :: body else body)

def render (places : Nat) (x : Float) : String :=
  renderBinary places (.ofFloat x)

theorem roundEven_near (n : Nat) {d : Nat} (h : 0 < d) :
    2 * (roundEven n d * d) ≤ 2 * n + d ∧ 2 * n ≤ 2 * (roundEven n d * d) + d := by
  have e : d * (n / d) + n % d = n := Nat.div_add_mod n d
  have l : n % d < d := Nat.mod_lt _ h
  simp only [roundEven]
  generalize n / d = k at *
  generalize n % d = r at *
  have hk : (k + 1) * d = d * k + d := by rw [Nat.add_mul, Nat.mul_comm]; simp
  have hk0 : k * d = d * k := Nat.mul_comm ..
  generalize d * k = p at *
  split
  · rename_i hc; rw [Nat.compare_eq_lt] at hc; omega
  · rename_i hc; rw [Nat.compare_eq_gt] at hc; omega
  · rename_i hc; rw [Nat.compare_eq_eq] at hc; split <;> omega

end Fixed

end Engraver
