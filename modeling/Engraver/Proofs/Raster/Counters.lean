import Engraver.Raster.Scan

/-! # Draining a scan by counters

The segments of a scan can be taken out one call at a time. A call sends what is queued; else it
looks for the ends of the next line that burns and queues the strokes of a sweep, whose runs grow by
one pixel a step. The counters are words of 32 bits. A step fails if a counter would leave 32 bits
or a pixel outside the image would be read.
-/

namespace Engraver

namespace Counter

def succ? (n : UInt32) : Option UInt32 :=
  if n.toNat + 1 < UInt32.size then some (n + 1) else none

def pred? (n : UInt32) : Option UInt32 :=
  if n = 0 then none else some (n - 1)

variable {n : UInt32}

theorem exists_succ?_eq (h : n.toNat + 1 < UInt32.size) :
    ∃ k, succ? n = some k ∧ k.toNat = n.toNat + 1 := by
  refine ⟨n + 1, if_pos h, ?_⟩
  rw [UInt32.toNat_add]
  exact Nat.mod_eq_of_lt h

theorem exists_pred?_eq (h : 0 < n.toNat) : ∃ k, pred? n = some k ∧ k.toNat + 1 = n.toNat := by
  have hn : n ≠ 0 := by
    rintro rfl
    exact absurd h (by decide)
  have hle : (1 : UInt32) ≤ n := UInt32.le_iff_toNat_le.mpr h
  refine ⟨n - 1, if_neg hn, ?_⟩
  rw [UInt32.toNat_sub_of_le _ _ hle]
  exact Nat.sub_add_cancel h

end Counter

structure Sweep where
  line : UInt32
  lo : UInt32
  hi : UInt32
  /-- the edge where the last stroke ended -/
  stop : UInt32

inductive Phase where
  | between
  /-- the first pixel that burns, from `pos` onwards -/
  | seekFirst (line pos : UInt32)
  /-- the last pixel that burns, in front of the edge `stop` -/
  | seekLast (line lo stop : UInt32)
  | rise (w : Sweep) (pos : UInt32)
  /-- the run from `pos` that goes to `last` so far -/
  | riseRun (w : Sweep) (pos last : UInt32) (v : Float)
  | fall (w : Sweep) (pos : UInt32)
  /-- the run from `pos` that goes back to `first` so far -/
  | fallRun (w : Sweep) (pos first : UInt32) (v : Float)
  | runOut (w : Sweep)

structure Drain where
  lines : List UInt32
  /-- the way of the next sweep, or of the one under way -/
  forward : Bool
  started : Bool
  queue : List Segment
  phase : Phase

inductive Step where
  | goesOn (d : Drain)
  | returns (g : Option Segment) (d : Drain)

namespace Drain

def into (d : Drain) (p : Phase) : Drain :=
  { d with phase := p }

def push (d : Drain) (g : Segment) : Drain :=
  { d with queue := d.queue ++ [g] }

def stepBetween (d : Drain) : Step :=
  match d.queue, d.lines with
  | g :: gs, _ => .returns (some g) { d with queue := gs }
  | [], [] => .returns none d
  | [], line :: lines => .goesOn { d with lines := lines, phase := .seekFirst line 0 }

end Drain

namespace Scan

open Counter

def lineEnd (s : Scan) : UInt32 :=
  if s.traversal.isYMajor then s.image.height else s.image.width

def read? (s : Scan) (line pos : UInt32) : Option Float :=
  let x := if s.traversal.isYMajor then line else pos
  let y := if s.traversal.isYMajor then pos else line
  if x < s.image.width ∧ y < s.image.height then some (s.image.intensity x.toNat y.toNat) else none

def segmentTo (s : Scan) (line edge : UInt32) (power : Float) : Segment :=
  s.place ⟨line.toNat, edge.toNat, 0, power⟩

def drain (s : Scan) : Drain :=
  ⟨s.lines.map .ofNat, s.startsForward, false, [], .between⟩

def stepSeekFirst (s : Scan) (d : Drain) (line pos : UInt32) : Option Step :=
  if pos < s.lineEnd then do
    let next ← succ? pos
    let v ← s.read? line pos
    if Span.burns v then some (.goesOn (d.into (.seekLast line pos s.lineEnd)))
    else some (.goesOn (d.into (.seekFirst line next)))
  else some (.goesOn (d.into .between))

def beginSweep (s : Scan) (d : Drain) (line lo hi : UInt32) : Option Step := do
  let start ← if d.forward then some lo else succ? hi
  let w : Sweep := ⟨line, lo, hi, start⟩
  let phase : Phase := if d.forward then .rise w lo else .fall w hi
  let d := if d.started then d.push (s.segmentTo line start 0.0) else d
  some (.goesOn { d with started := true, phase := phase })

def stepSeekLast (s : Scan) (d : Drain) (line lo stop : UInt32) : Option Step :=
  if lo < stop then do
    let pos ← pred? stop
    let v ← s.read? line pos
    if Span.burns v then s.beginSweep d line lo pos
    else some (.goesOn (d.into (.seekLast line lo pos)))
  else some (.goesOn (d.into .between))

def stepRise (s : Scan) (d : Drain) (w : Sweep) (pos : UInt32) : Option Step :=
  if pos ≤ w.hi then do
    let v ← s.read? w.line pos
    some (.goesOn (d.into (.riseRun w pos pos v)))
  else some (.goesOn (d.into (.runOut w)))

def stepRiseRun (s : Scan) (d : Drain) (w : Sweep) (pos last : UInt32) (v : Float) :
    Option Step := do
  let next ← succ? last
  let grows ← if last < w.hi then (s.read? w.line next).map (· == v) else some false
  if grows then some (.goesOn (d.into (.riseRun w pos next v)))
  else
    let d := d.push (s.segmentTo w.line next v)
    some (.goesOn (d.into (.rise { w with stop := next } next)))

def stepFall (s : Scan) (d : Drain) (w : Sweep) (pos : UInt32) : Option Step := do
  let v ← s.read? w.line pos
  some (.goesOn (d.into (.fallRun w pos pos v)))

def stepFallRun (s : Scan) (d : Drain) (w : Sweep) (pos first : UInt32) (v : Float) :
    Option Step := do
  let grows ← if w.lo < first then do
      let next ← pred? first
      (s.read? w.line next).map (· == v)
    else some false
  if grows then do
    let next ← pred? first
    some (.goesOn (d.into (.fallRun w pos next v)))
  else
    let d := d.push (s.segmentTo w.line first v)
    let w := { w with stop := first }
    if first = w.lo then some (.goesOn (d.into (.runOut w)))
    else do
      let next ← pred? first
      some (.goesOn (d.into (.fall w next)))

def stepRunOut (s : Scan) (d : Drain) (w : Sweep) : Step :=
  let past : Int := if d.forward then s.overscan else -s.overscan
  let queue := if s.overscan = 0 then d.queue
    else d.queue ++ [s.place ⟨w.line.toNat, w.stop.toNat, past, 0.0⟩]
  .goesOn { d with queue := queue, forward := s.turned d.forward, phase := .between }

/-- One step of a call; none if it fails. -/
def advance? (s : Scan) (d : Drain) : Option Step :=
  match d.phase with
  | .between => some d.stepBetween
  | .seekFirst line pos => s.stepSeekFirst d line pos
  | .seekLast line lo stop => s.stepSeekLast d line lo stop
  | .rise w pos => s.stepRise d w pos
  | .riseRun w pos last v => s.stepRiseRun d w pos last v
  | .fall w pos => s.stepFall d w pos
  | .fallRun w pos first v => s.stepFallRun d w pos first v
  | .runOut w => some (s.stepRunOut d w)

/-- What the steps of any number of calls lead to. -/
inductive Reached (s : Scan) : Drain → Prop
  | start : Reached s s.drain
  | goesOn {d d' : Drain} : Reached s d → s.advance? d = some (.goesOn d') → Reached s d'
  | returns {d d' : Drain} {g : Option Segment} :
      Reached s d → s.advance? d = some (.returns g d') → Reached s d'

inductive Returns (s : Scan) : Drain → Option Segment → Drain → Prop
  | returns {d d' : Drain} {g : Option Segment} :
      s.advance? d = some (.returns g d') → Returns s d g d'
  | goesOn {d d' d'' : Drain} {g : Option Segment} :
      s.advance? d = some (.goesOn d') → Returns s d' g d'' → Returns s d g d''

/-- Calls in order, with what each returns. -/
inductive Yields (s : Scan) : Drain → List (Option Segment) → Drain → Prop
  | nil (d : Drain) : Yields s d [] d
  | cons {d d' d'' : Drain} {g : Option Segment} {gs : List (Option Segment)} :
      Returns s d g d' → Yields s d' gs d'' → Yields s d (g :: gs) d''

variable {s : Scan}

theorem toNat_lineEnd (s : Scan) : s.lineEnd.toNat = s.lineLength := by
  unfold lineEnd lineLength height width
  split <;> rfl

theorem lineLength_lt (s : Scan) : s.lineLength < UInt32.size :=
  s.toNat_lineEnd ▸ s.lineEnd.toNat_lt

theorem lineCount_lt (s : Scan) : s.lineCount < UInt32.size := by
  unfold lineCount width height
  split <;> exact UInt32.toNat_lt _

theorem read?_eq {line pos : UInt32} (hl : line.toNat < s.lineCount)
    (hp : pos.toNat < s.lineLength) :
    s.read? line pos = some (s.sample line.toNat pos.toNat) := by
  unfold lineCount at hl
  unfold lineLength at hp
  unfold read? sample
  cases hy : s.traversal.isYMajor with
  | true =>
    rw [hy] at hl hp
    exact if_pos ⟨UInt32.lt_iff_toNat_lt.mpr hl, UInt32.lt_iff_toNat_lt.mpr hp⟩
  | false =>
    rw [hy] at hl hp
    exact if_pos ⟨UInt32.lt_iff_toNat_lt.mpr hp, UInt32.lt_iff_toNat_lt.mpr hl⟩

theorem Returns.unique {d d' d'' : Drain} {g h : Option Segment} (hg : s.Returns d g d')
    (hh : s.Returns d h d'') : g = h ∧ d' = d'' := by
  induction hg with
  | returns hs =>
    cases hh with
    | returns hs' =>
      obtain ⟨rfl, rfl⟩ := Step.returns.inj (Option.some.inj (hs.symm.trans hs'))
      exact ⟨rfl, rfl⟩
    | goesOn hs' _ => cases hs.symm.trans hs'
  | goesOn hs _ ih =>
    cases hh with
    | returns hs' => cases hs.symm.trans hs'
    | goesOn hs' hh =>
      obtain rfl := Step.goesOn.inj (Option.some.inj (hs.symm.trans hs'))
      exact ih hh

theorem Yields.unique {d d' d'' : Drain} {gs hs : List (Option Segment)} (hg : s.Yields d gs d')
    (hh : s.Yields d hs d'') (hlength : gs.length = hs.length) : gs = hs := by
  induction hg generalizing hs with
  | nil => exact (List.length_eq_zero_iff.mp hlength.symm).symm
  | cons hr _ ih =>
    cases hh with
    | nil => cases hlength
    | cons hr' hh =>
      obtain ⟨rfl, rfl⟩ := hr.unique hr'
      rw [ih hh (Nat.succ.inj hlength)]

end Scan
end Engraver
