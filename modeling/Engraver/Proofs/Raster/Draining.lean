import Engraver.Proofs.Raster.Counters
import Engraver.Proofs.Raster.Growth

/-! # Draining a scan never fails and comes to an end

Each state of a drain stands for the segments that are still to come. A step inside a call keeps
them and has less to do, and a call that returns takes the first of them. So the calls return the
segments of the scan in order, then nothing.
-/

namespace Engraver

structure Sweep.Inside (s : Scan) (w : Sweep) : Prop where
  line_lt : w.line.toNat < s.lineCount
  lo_le : w.lo.toNat ≤ w.hi.toNat
  hi_lt : w.hi.toNat < s.lineLength
  le_stop : w.lo.toNat ≤ w.stop.toNat
  stop_le : w.stop.toNat ≤ w.hi.toNat + 1
  fits : w.hi.toNat + 1 < UInt32.size

theorem Sweep.Inside.stopAt {s : Scan} {w : Sweep} (h : w.Inside s) {edge : UInt32}
    (hlo : w.lo.toNat ≤ edge.toNat) (hhi : edge.toNat ≤ w.hi.toNat + 1) :
    Sweep.Inside s { w with stop := edge } :=
  ⟨h.line_lt, h.lo_le, h.hi_lt, hlo, hhi, h.fits⟩

def Sweep.finish (w : Sweep) (forward : Bool) : Nat :=
  if forward then w.hi.toNat + 1 else w.lo.toNat

namespace Phase

/-- Each counter is at a pixel of the image or at the edge behind the last. -/
def InRange (s : Scan) : Phase → Prop
  | between => True
  | seekFirst line pos => line.toNat < s.lineCount ∧ pos.toNat ≤ s.lineLength
  | seekLast line lo stop =>
    line.toNat < s.lineCount ∧ lo.toNat < stop.toNat ∧ stop.toNat ≤ s.lineLength
  | rise w pos => w.Inside s ∧ w.lo.toNat ≤ pos.toNat ∧ pos.toNat ≤ w.hi.toNat + 1
  | riseRun w pos last _ => w.Inside s ∧ w.lo.toNat ≤ pos.toNat ∧ pos.toNat ≤ last.toNat ∧
    last.toNat ≤ w.hi.toNat
  | fall w pos => w.Inside s ∧ w.lo.toNat ≤ pos.toNat ∧ pos.toNat ≤ w.hi.toNat
  | fallRun w pos first _ => w.Inside s ∧ w.lo.toNat ≤ first.toNat ∧
    first.toNat ≤ pos.toNat ∧ pos.toNat ≤ w.hi.toNat
  | runOut w => w.Inside s

/-- What a phase has found out. -/
def Tells (s : Scan) (forward : Bool) : Phase → Prop
  | between => True
  | seekFirst line pos => ∀ i < pos.toNat, ¬ 0.0 < s.sample line.toNat i
  | seekLast line lo stop => 0.0 < s.sample line.toNat lo.toNat ∧
    (∀ i < lo.toNat, ¬ 0.0 < s.sample line.toNat i) ∧
    ∀ i, stop.toNat ≤ i → ¬ 0.0 < s.sample line.toNat i
  | rise w pos => forward = true ∧ w.stop = pos
  | riseRun _ _ _ _ => forward = true
  | fall _ _ => forward = false
  | fallRun _ _ _ _ => forward = false
  | runOut w => w.stop.toNat = w.finish forward

/-- It falls with every step on a line. A pixel of a sweep counts twice, as a run may end there. -/
def rank (s : Scan) : Phase → Nat
  | between => 0
  | seekFirst _ pos => 4 * s.lineLength + 4 - pos.toNat
  | seekLast _ _ stop => 2 * s.lineLength + 3 + stop.toNat
  | rise w pos => 2 * (w.hi.toNat + 1 - pos.toNat) + 2
  | riseRun w _ last _ => 2 * (w.hi.toNat - last.toNat) + 3
  | fall w pos => 2 * (pos.toNat - w.lo.toNat) + 4
  | fallRun w _ first _ => 2 * (first.toNat - w.lo.toNat) + 3
  | runOut _ => 1

end Phase

namespace Scan

open Engraver.Span Counter

variable {s : Scan} {d d' : Drain}

def spansOf (s : Scan) (lines : List UInt32) : List Span :=
  lines.filterMap fun line => s.span? line.toNat

def runOutAt (s : Scan) (line edge : Nat) (forward : Bool) : List Stroke :=
  if s.overscan = 0 then []
  else [⟨line, edge, if forward then s.overscan else -s.overscan, 0.0⟩]

def behind (s : Scan) (d : Drain) : List Stroke :=
  s.strokesOver d.started (s.turned d.forward) (s.spansOf d.lines)

/-- The strokes from a phase on. -/
def left (s : Scan) (d : Drain) : Phase → List Stroke
  | .between => s.strokesOver d.started d.forward (s.spansOf d.lines)
  | .seekFirst line _ => s.strokesOver d.started d.forward (s.spansOf (line :: d.lines))
  | .seekLast line _ _ => s.strokesOver d.started d.forward (s.spansOf (line :: d.lines))
  | .rise w pos =>
    s.strokesAhead w.line.toNat true pos.toNat (w.hi.toNat + 1 - pos.toNat) ++
      (s.runOutAt w.line.toNat (w.finish true) true ++ s.behind d)
  | .riseRun w pos last v =>
    s.strokesGrown w.line.toNat true pos.toNat (last.toNat + 1 - pos.toNat)
      (w.hi.toNat - last.toNat) v ++
      (s.runOutAt w.line.toNat (w.finish true) true ++ s.behind d)
  | .fall w pos =>
    s.strokesAhead w.line.toNat false (pos.toNat + 1) (pos.toNat + 1 - w.lo.toNat) ++
      (s.runOutAt w.line.toNat (w.finish false) false ++ s.behind d)
  | .fallRun w pos first v =>
    s.strokesGrown w.line.toNat false (pos.toNat + 1) (pos.toNat + 1 - first.toNat)
      (first.toNat - w.lo.toNat) v ++
      (s.runOutAt w.line.toNat (w.finish false) false ++ s.behind d)
  | .runOut w => s.runOutAt w.line.toNat w.stop.toNat d.forward ++ s.behind d

def rest (s : Scan) (d : Drain) : List Segment :=
  d.queue ++ (s.left d d.phase).map s.place

structure Sound (s : Scan) (d : Drain) : Prop where
  lines : ∀ line ∈ d.lines, line.toNat < s.lineCount
  inRange : d.phase.InRange s
  tells : d.phase.Tells s d.forward

/-- A step inside a call keeps the segments to come and leaves less to do. -/
structure Advances (s : Scan) (d d' : Drain) : Prop where
  step : s.advance? d = some (.goesOn d')
  sound : s.Sound d'
  less : d'.lines.length < d.lines.length ∨
    d'.lines.length = d.lines.length ∧ d'.phase.rank s < d.phase.rank s
  rest : s.rest d' = s.rest d

/-- A step at the end of a call takes the first of the segments to come. -/
structure Delivers (s : Scan) (d d' : Drain) : Prop where
  step : s.advance? d = some (.returns (s.rest d).head? d')
  sound : s.Sound d'
  rest : s.rest d' = (s.rest d).tail

theorem left_into (s : Scan) (d : Drain) (p q : Phase) : s.left (d.into p) q = s.left d q := by
  cases q <;> rfl

theorem left_push (s : Scan) (d : Drain) (g : Segment) (q : Phase) :
    s.left (d.push g) q = s.left d q := by
  cases q <;> rfl

theorem Sound.inRange_of (h : s.Sound d) {p : Phase} (hp : d.phase = p) : p.InRange s :=
  hp ▸ h.inRange

theorem Sound.tells_of (h : s.Sound d) {p : Phase} (hp : d.phase = p) : p.Tells s d.forward :=
  hp ▸ h.tells

theorem Sound.advances_into (h : s.Sound d) {p : Phase}
    (hstep : s.advance? d = some (.goesOn (d.into p))) (hrange : p.InRange s)
    (htells : p.Tells s d.forward) (hrank : p.rank s < d.phase.rank s)
    (hleft : s.left d d.phase = s.left d p) : s.Advances d (d.into p) where
  step := hstep
  sound := ⟨h.lines, hrange, htells⟩
  less := .inr ⟨rfl, hrank⟩
  rest := by
    unfold Scan.rest
    rw [hleft, left_into]
    rfl

theorem Sound.advances_push (h : s.Sound d) {k : Stroke} {p : Phase}
    (hstep : s.advance? d = some (.goesOn ((d.push (s.place k)).into p)))
    (hrange : p.InRange s) (htells : p.Tells s d.forward) (hrank : p.rank s < d.phase.rank s)
    (hleft : s.left d d.phase = k :: s.left d p) :
    s.Advances d ((d.push (s.place k)).into p) where
  step := hstep
  sound := ⟨h.lines, hrange, htells⟩
  less := .inr ⟨rfl, hrank⟩
  rest := by
    unfold Scan.rest
    rw [hleft, left_into, left_push, List.map_cons]
    exact List.append_assoc ..

theorem Sound.between (h : s.Sound d) (hp : d.phase = .between) :
    (∃ d', s.Advances d d') ∨ ∃ d', s.Delivers d d' := by
  obtain ⟨lines, forward, started, queue, phase⟩ := d
  subst hp
  cases queue with
  | cons g gs => exact .inr ⟨_, rfl, ⟨h.lines, trivial, trivial⟩, rfl⟩
  | nil =>
    cases lines with
    | nil => exact .inr ⟨⟨[], forward, started, [], .between⟩, rfl, h, rfl⟩
    | cons line lines =>
      obtain ⟨hline, hlines⟩ := List.forall_mem_cons.mp h.lines
      have hsound : s.Sound ⟨lines, forward, started, [], .seekFirst line 0⟩ :=
        ⟨hlines, ⟨hline, Nat.zero_le _⟩, fun i hi => absurd hi (Nat.not_lt_zero i)⟩
      exact .inl ⟨_, rfl, hsound, .inl (Nat.lt_succ_self _), rfl⟩

theorem lt_lineEnd_iff {pos : UInt32} : pos < s.lineEnd ↔ pos.toNat < s.lineLength := by
  rw [UInt32.lt_iff_toNat_lt, toNat_lineEnd]

theorem Sound.advances_seekFirst (h : s.Sound d) {line pos : UInt32}
    (hp : d.phase = .seekFirst line pos) : ∃ d', s.Advances d d' := by
  obtain ⟨hline, hpos⟩ := h.inRange_of hp
  have htells := h.tells_of hp
  by_cases hlt : pos < s.lineEnd
  · have hpos : pos.toNat < s.lineLength := lt_lineEnd_iff.mp hlt
    have hread := read?_eq hline hpos
    obtain ⟨next, hnext, hnext_val⟩ :=
      exists_succ?_eq (Nat.lt_of_le_of_lt (Nat.succ_le_of_lt hpos) s.lineLength_lt)
    by_cases hburns : burns (s.sample line.toNat pos.toNat) = true
    · have hstep : s.advance? d = some (.goesOn (d.into (.seekLast line pos s.lineEnd))) := by
        simp [advance?, hp, stepSeekFirst, hlt, hnext, hread, hburns]
      refine ⟨_, h.advances_into hstep ?_ ?_ ?_ ?_⟩
      · exact ⟨hline, by rwa [toNat_lineEnd], (toNat_lineEnd s).le⟩
      · refine ⟨burns_iff.mp hburns, htells, fun i hi => ?_⟩
        rw [toNat_lineEnd] at hi
        rw [sample_eq_zero_of_le (.inr hi)]
        decide
      · simp only [hp, Phase.rank, toNat_lineEnd]
        omega
      · rw [hp]
        rfl
    · have hstep : s.advance? d = some (.goesOn (d.into (.seekFirst line next))) := by
        simp [advance?, hp, stepSeekFirst, hlt, hnext, hread, hburns]
      refine ⟨_, h.advances_into hstep ?_ ?_ ?_ ?_⟩
      · exact ⟨hline, by omega⟩
      · intro i hi
        rcases Nat.lt_succ_iff_lt_or_eq.mp (hnext_val ▸ hi) with hi | rfl
        · exact htells i hi
        · exact fun hb => hburns (burns_iff.mpr hb)
      · simp only [hp, Phase.rank]
        omega
      · rw [hp]
        rfl
  · have hpos' : ¬ pos.toNat < s.lineLength := mt lt_lineEnd_iff.mpr hlt
    have hblank : s.span? line.toNat = none :=
      span?_eq_none fun i hi => htells i (Nat.lt_of_lt_of_le hi (Nat.le_of_not_lt hpos'))
    have hstep : s.advance? d = some (.goesOn (d.into .between)) := by
      simp [advance?, hp, stepSeekFirst, hlt]
    refine ⟨_, h.advances_into hstep trivial trivial ?_ ?_⟩
    · simp only [hp, Phase.rank]
      omega
    · rw [hp]
      exact congrArg (s.strokesOver d.started d.forward) (List.filterMap_cons_none hblank)

theorem Framed.strokesOver_eq {p : Span} (h : s.Framed p) (started forward : Bool)
    (ps : List Span) :
    s.strokesOver started forward (p :: ps) =
      (if started then [p.travel forward] else []) ++
        (s.strokesAhead p.line forward (p.start forward) p.values.length ++
          (s.runOutAt p.line (p.stop forward) forward ++
            s.strokesOver true (s.turned forward) ps)) := by
  rw [strokesOver_cons, visit, h.sweep_eq_strokesAhead, List.append_assoc]
  rfl

theorem Sound.advances_started (h : s.Sound d) {w : Sweep} {p : Phase}
    (hstep : s.advance? d = some (.goesOn
      { if d.started then d.push (s.segmentTo w.line w.stop 0.0) else d with
        started := true, phase := p }))
    (hrange : p.InRange s) (htells : p.Tells s d.forward) (hrank : p.rank s < d.phase.rank s)
    (hleft : s.left d d.phase =
      (if d.started then [⟨w.line.toNat, w.stop.toNat, 0, 0.0⟩] else []) ++
        s.left { d with started := true } p) :
    ∃ d', s.Advances d d' := by
  obtain ⟨lines, forward, started, queue, phase⟩ := d
  refine ⟨_, hstep, ?_, .inr ⟨?_, ?_⟩, ?_⟩
  · cases started <;> exact ⟨h.lines, hrange, htells⟩
  · cases started <;> rfl
  · cases started <;> exact hrank
  · unfold Scan.rest
    rw [hleft]
    cases started with
    | false => rfl
    | true =>
      rw [List.map_append, ← List.append_assoc]
      cases p <;> rfl

theorem Sound.advances_beginSweep (h : s.Sound d) {line lo hi : UInt32} {p : Span}
    (hstep : s.advance? d = s.beginSweep d line lo hi) (hline : line.toNat < s.lineCount)
    (hrank : 2 * s.lineLength + 3 < d.phase.rank s)
    (hleft : s.left d d.phase = s.strokesOver d.started d.forward (p :: s.spansOf d.lines))
    (hf : s.Framed p) (hp : p.line = line.toNat) (hfirst : p.first = lo.toNat)
    (hlast : p.last = hi.toNat + 1) : ∃ d', s.Advances d d' := by
  have hinside := hf.inside
  have hpos := hf.length_pos
  have hlength : p.last = p.first + p.values.length := rfl
  have hfits := s.lineLength_lt
  obtain ⟨stop, hstop, hstop_val⟩ := exists_succ?_eq (n := hi) (by omega)
  have hpixels : p.values.length = hi.toNat + 1 - lo.toNat := by omega
  rw [hf.strokesOver_eq, hpixels] at hleft
  cases hforward : d.forward with
  | true =>
    have hstart : p.start true = lo.toNat := hfirst
    have hend : p.stop true = hi.toNat + 1 := hlast
    refine h.advances_started (w := ⟨line, lo, hi, lo⟩) (p := .rise ⟨line, lo, hi, lo⟩ lo)
      ?_ ?_ ?_ ?_ ?_
    · simp [hstep, beginSweep, hforward]
    · refine ⟨⟨hline, ?_, ?_, Nat.le_refl _, ?_, ?_⟩, Nat.le_refl _, ?_⟩ <;> dsimp only <;> omega
    · exact ⟨hforward, rfl⟩
    · refine Nat.lt_of_le_of_lt ?_ hrank
      dsimp only [Phase.rank]
      omega
    · rw [hforward, travel, hp, hstart, hend] at hleft
      refine hleft.trans ?_
      simp only [left, behind, Sweep.finish, hforward, if_true]
  | false =>
    have hstart : p.start false = stop.toNat := hlast.trans hstop_val.symm
    have hend : p.stop false = lo.toNat := hfirst
    refine h.advances_started (w := ⟨line, lo, hi, stop⟩) (p := .fall ⟨line, lo, hi, stop⟩ hi)
      ?_ ?_ ?_ ?_ ?_
    · simp [hstep, beginSweep, hforward, hstop]
    · refine ⟨⟨hline, ?_, ?_, ?_, ?_, ?_⟩, ?_, Nat.le_refl _⟩ <;> dsimp only <;> omega
    · exact hforward
    · refine Nat.lt_of_le_of_lt ?_ hrank
      dsimp only [Phase.rank]
      omega
    · rw [hforward, travel, hp, hstart, hend, hstop_val] at hleft
      refine hleft.trans ?_
      simp only [left, behind, Sweep.finish, hforward, hstop_val, Bool.false_eq_true, if_false]

theorem Sound.advances_seekLast (h : s.Sound d) {line lo stop : UInt32}
    (hp : d.phase = .seekLast line lo stop) : ∃ d', s.Advances d d' := by
  obtain ⟨hline, hlt, hstop⟩ := h.inRange_of hp
  obtain ⟨hlo, hbefore, hbehind⟩ := h.tells_of hp
  have hlt' : lo < stop := UInt32.lt_iff_toNat_lt.mpr hlt
  obtain ⟨pos, hpos, hpos_val⟩ := exists_pred?_eq (Nat.zero_lt_of_lt hlt)
  have hread := read?_eq hline (show pos.toNat < s.lineLength by omega)
  by_cases hburns : burns (s.sample line.toNat pos.toNat) = true
  · obtain ⟨p, hspan, hf, hp_line, hfirst, hlast⟩ := exists_span?_eq hlo hbefore
      (burns_iff.mp hburns) fun i hi => hbehind i (by omega)
    have hstep : s.advance? d = s.beginSweep d line lo pos := by
      simp [advance?, hp, stepSeekLast, hlt', hpos, hread, hburns]
    refine h.advances_beginSweep hstep hline ?_ ?_ hf hp_line hfirst hlast
    · simp only [hp, Phase.rank]
      omega
    · rw [hp]
      exact congrArg (s.strokesOver d.started d.forward) (List.filterMap_cons_some hspan)
  · have hstep : s.advance? d = some (.goesOn (d.into (.seekLast line lo pos))) := by
      simp [advance?, hp, stepSeekLast, hlt', hpos, hread, hburns]
    have hblank : ∀ i, pos.toNat ≤ i → ¬ 0.0 < s.sample line.toNat i := by
      intro i hi
      rcases Nat.eq_or_lt_of_le hi with rfl | hi
      · exact fun hb => hburns (burns_iff.mpr hb)
      · exact hbehind i (by omega)
    have hlo_lt : lo.toNat < pos.toNat := Nat.lt_of_not_le fun hle => hblank _ hle hlo
    refine ⟨_, h.advances_into hstep ⟨hline, hlo_lt, by omega⟩ ⟨hlo, hbefore, hblank⟩ ?_ ?_⟩
    · simp only [hp, Phase.rank]
      omega
    · rw [hp]
      rfl

theorem Sound.advances_rise (h : s.Sound d) {w : Sweep} {pos : UInt32}
    (hp : d.phase = .rise w pos) : ∃ d', s.Advances d d' := by
  obtain ⟨hw, hlo, hhi⟩ := h.inRange_of hp
  obtain ⟨hforward, hstop⟩ := h.tells_of hp
  have hhi_lt := hw.hi_lt
  by_cases hle : pos ≤ w.hi
  · have hle' : pos.toNat ≤ w.hi.toNat := UInt32.le_iff_toNat_le.mp hle
    have hread := read?_eq hw.line_lt (show pos.toNat < s.lineLength by omega)
    have hstep : s.advance? d = some (.goesOn (d.into
        (.riseRun w pos pos (s.sample w.line.toNat pos.toNat)))) := by
      simp [advance?, hp, stepRise, hle, hread]
    refine ⟨_, h.advances_into hstep ⟨hw, hlo, Nat.le_refl _, hle'⟩ hforward ?_ ?_⟩
    · simp only [hp, Phase.rank]
      omega
    · have hpixels : w.hi.toNat + 1 - pos.toNat = w.hi.toNat - pos.toNat + 1 := by omega
      simp only [hp, left, hpixels, strokesAhead_succ, Nat.add_sub_cancel_left]
      rfl
  · have hend : pos.toNat = w.hi.toNat + 1 := by
      rw [UInt32.le_iff_toNat_le] at hle
      omega
    have hstep : s.advance? d = some (.goesOn (d.into (.runOut w))) := by
      simp [advance?, hp, stepRise, hle]
    refine ⟨_, h.advances_into hstep hw ?_ ?_ ?_⟩
    · rw [hforward]
      exact (congrArg UInt32.toNat hstop).trans hend
    · simp only [hp, Phase.rank]
      omega
    · simp only [hp, left, hend, Nat.sub_self, hstop, hforward, Sweep.finish, if_true]
      rfl

theorem Sound.advances_riseRun (h : s.Sound d) {w : Sweep} {pos last : UInt32} {v : Float}
    (hp : d.phase = .riseRun w pos last v) : ∃ d', s.Advances d d' := by
  obtain ⟨hw, hlo, hpos, hlast⟩ := h.inRange_of hp
  have hforward : d.forward = true := h.tells_of hp
  have hhi_lt := hw.hi_lt
  have hfits := hw.fits
  obtain ⟨next, hnext, hnext_val⟩ := exists_succ?_eq (n := last) (by omega)
  have hread (hlt : last < w.hi) :
      s.read? w.line next = some (s.sample w.line.toNat next.toNat) := by
    rw [UInt32.lt_iff_toNat_lt] at hlt
    exact read?_eq hw.line_lt (by omega)
  -- the edge behind the run is the place of the pixel that it may take in
  have hedge : beyond true pos.toNat (last.toNat + 1 - pos.toNat) = next.toNat :=
    (beyond_true hpos).trans hnext_val.symm
  by_cases hgrows : last < w.hi ∧ (s.sample w.line.toNat next.toNat == v) = true
  · obtain ⟨hlt, hsame⟩ := hgrows
    have hlt' : last.toNat < w.hi.toNat := UInt32.lt_iff_toNat_lt.mp hlt
    have hstep : s.advance? d = some (.goesOn (d.into (.riseRun w pos next v))) := by
      simp [advance?, hp, stepRiseRun, hnext, hlt, hread hlt, hsame]
    refine ⟨_, h.advances_into hstep ⟨hw, hlo, by omega, by omega⟩ hforward ?_ ?_⟩
    · simp only [hp, Phase.rank]
      omega
    · have hpixels : w.hi.toNat - last.toNat = w.hi.toNat - next.toNat + 1 := by omega
      have hlength : next.toNat + 1 - pos.toNat = last.toNat + 1 - pos.toNat + 1 := by omega
      simp only [hp, left, hpixels, hlength]
      rw [strokesGrown_succ (by rw [hedge]; exact hsame)]
  · have hstep : s.advance? d = some (.goesOn ((d.push (s.segmentTo w.line next v)).into
        (.rise { w with stop := next } next))) := by
      by_cases hlt : last < w.hi
      · simp [advance?, hp, stepRiseRun, hnext, hlt, hread hlt, mt (And.intro hlt) hgrows]
      · simp [advance?, hp, stepRiseRun, hnext, hlt]
    have hlo' : w.lo.toNat ≤ next.toNat := by omega
    have hhi' : next.toNat ≤ w.hi.toNat + 1 := by omega
    refine ⟨_, h.advances_push hstep ⟨hw.stopAt hlo' hhi', hlo', hhi'⟩ ⟨hforward, rfl⟩ ?_ ?_⟩
    · simp only [hp, Phase.rank]
      omega
    · have hpixels : w.hi.toNat + 1 - next.toNat = w.hi.toNat - last.toNat := by omega
      have hdiffers : 0 < w.hi.toNat - last.toNat →
          ¬ (s.sample w.line.toNat next.toNat == v) = true := fun hlt hsame =>
        hgrows ⟨UInt32.lt_iff_toNat_lt.mpr (Nat.lt_of_sub_pos hlt), hsame⟩
      simp only [hp, left, hpixels]
      rw [strokesGrown_eq_cons (by rw [hedge]; exact hdiffers), hedge]
      rfl

theorem Sound.advances_fall (h : s.Sound d) {w : Sweep} {pos : UInt32}
    (hp : d.phase = .fall w pos) : ∃ d', s.Advances d d' := by
  obtain ⟨hw, hlo, hhi⟩ := h.inRange_of hp
  have hforward : d.forward = false := h.tells_of hp
  have hread := read?_eq hw.line_lt (Nat.lt_of_le_of_lt hhi hw.hi_lt)
  have hstep : s.advance? d = some (.goesOn (d.into
      (.fallRun w pos pos (s.sample w.line.toNat pos.toNat)))) := by
    simp [advance?, hp, stepFall, hread]
  refine ⟨_, h.advances_into hstep ⟨hw, hlo, Nat.le_refl _, hhi⟩ hforward ?_ ?_⟩
  · simp only [hp, Phase.rank]
    omega
  · have hpixels : pos.toNat + 1 - w.lo.toNat = pos.toNat - w.lo.toNat + 1 := by omega
    simp only [hp, left, hpixels, strokesAhead_succ, Nat.add_sub_cancel_left]
    rfl

/-- A run that has not come to the end of its sweep takes in a pixel, or the next run begins. -/
theorem Sound.advances_fallRun_of_lt (h : s.Sound d) {w : Sweep} {pos first : UInt32} {v : Float}
    (hp : d.phase = .fallRun w pos first v) (hlt : w.lo < first) : ∃ d', s.Advances d d' := by
  obtain ⟨hw, hlo, hpos, hhi⟩ := h.inRange_of hp
  have hforward : d.forward = false := h.tells_of hp
  have hhi_lt := hw.hi_lt
  have hlt' : w.lo.toNat < first.toNat := UInt32.lt_iff_toNat_lt.mp hlt
  obtain ⟨next, hnext, hnext_val⟩ := exists_pred?_eq (Nat.zero_lt_of_lt hlt')
  have hread := read?_eq hw.line_lt (show next.toNat < s.lineLength by omega)
  have hedge := beyond_false hpos
  have hahead : ahead false first.toNat 0 = next.toNat := by
    rw [← hnext_val]
    rfl
  by_cases hsame : (s.sample w.line.toNat next.toNat == v) = true
  · have hstep : s.advance? d = some (.goesOn (d.into (.fallRun w pos next v))) := by
      simp [advance?, hp, stepFallRun, hlt, hnext, hread, hsame]
    refine ⟨_, h.advances_into hstep ⟨hw, by omega, by omega, hhi⟩ hforward ?_ ?_⟩
    · simp only [hp, Phase.rank]
      omega
    · have hpixels : first.toNat - w.lo.toNat = next.toNat - w.lo.toNat + 1 := by omega
      have hlength : pos.toNat + 1 - next.toNat = pos.toNat + 1 - first.toNat + 1 := by omega
      simp only [hp, left, hpixels, hlength]
      rw [strokesGrown_succ (by rw [hedge, hahead]; exact hsame)]
  · have hne : first ≠ w.lo := fun he => absurd (he ▸ hlt) (UInt32.lt_irrefl _)
    have hstep : s.advance? d = some (.goesOn ((d.push (s.segmentTo w.line first v)).into
        (.fall { w with stop := first } next))) := by
      simp [advance?, hp, stepFallRun, hlt, hnext, hread, hsame, hne]
    have hlo' : w.lo.toNat ≤ next.toNat := by omega
    have hhi' : next.toNat ≤ w.hi.toNat := by omega
    have hinside := hw.stopAt hlo (Nat.le_succ_of_le (Nat.le_trans hpos hhi))
    refine ⟨_, h.advances_push hstep ⟨hinside, hlo', hhi'⟩ hforward ?_ ?_⟩
    · simp only [hp, Phase.rank]
      omega
    · simp only [hp, left, hnext_val]
      rw [strokesGrown_eq_cons (by rw [hedge, hahead]; exact fun _ => hsame), hedge]
      rfl

/-- The sweep ends with the run that has come to its end, and the counter goes no further. -/
theorem Sound.advances_fallRun_of_eq (h : s.Sound d) {w : Sweep} {pos first : UInt32} {v : Float}
    (hp : d.phase = .fallRun w pos first v) (hfirst : first = w.lo) : ∃ d', s.Advances d d' := by
  obtain ⟨hw, hlo, hpos, hhi⟩ := h.inRange_of hp
  have hforward : d.forward = false := h.tells_of hp
  have hstep : s.advance? d = some (.goesOn ((d.push (s.segmentTo w.line first v)).into
      (.runOut { w with stop := first }))) := by
    simp [advance?, hp, stepFallRun, hfirst]
  have hinside := hw.stopAt hlo (Nat.le_succ_of_le (Nat.le_trans hpos hhi))
  refine ⟨_, h.advances_push hstep hinside ?_ ?_ ?_⟩
  · simp only [Phase.Tells, Sweep.finish, hforward, hfirst, Bool.false_eq_true, if_false]
  · simp only [hp, Phase.rank]
    omega
  · have hpixels : first.toNat - w.lo.toNat = 0 := by
      rw [hfirst, Nat.sub_self]
    simp only [hp, left, hpixels, hforward]
    rw [strokesGrown_eq_cons (fun hn => absurd hn (Nat.lt_irrefl 0)), beyond_false hpos, hfirst]
    rfl

theorem Sound.advances_fallRun (h : s.Sound d) {w : Sweep} {pos first : UInt32} {v : Float}
    (hp : d.phase = .fallRun w pos first v) : ∃ d', s.Advances d d' := by
  obtain ⟨-, hlo, -, -⟩ := h.inRange_of hp
  by_cases hlt : w.lo < first
  · exact h.advances_fallRun_of_lt hp hlt
  · have hle : first ≤ w.lo := UInt32.not_lt.mp hlt
    exact h.advances_fallRun_of_eq hp (UInt32.le_antisymm hle (UInt32.le_iff_toNat_le.mpr hlo))

theorem Sound.advances_runOut (h : s.Sound d) {w : Sweep} (hp : d.phase = .runOut w) :
    ∃ d', s.Advances d d' := by
  have hstep : s.advance? d = some (s.stepRunOut d w) := by
    simp only [advance?, hp]
  refine ⟨_, hstep, ⟨h.lines, trivial, trivial⟩, .inr ⟨rfl, ?_⟩, ?_⟩
  · simp [hp, Phase.rank]
  · simp only [Scan.rest, hp, left, behind, runOutAt]
    split <;> simp

/-- A step of a sound state does not fail. -/
theorem Sound.advances_or_delivers (h : s.Sound d) :
    (∃ d', s.Advances d d') ∨ ∃ d', s.Delivers d d' := by
  cases hp : d.phase with
  | between => exact h.between hp
  | seekFirst => exact .inl (h.advances_seekFirst hp)
  | seekLast => exact .inl (h.advances_seekLast hp)
  | rise => exact .inl (h.advances_rise hp)
  | riseRun => exact .inl (h.advances_riseRun hp)
  | fall => exact .inl (h.advances_fall hp)
  | fallRun => exact .inl (h.advances_fallRun hp)
  | runOut => exact .inl (h.advances_runOut hp)

theorem Sound.exists_advance?_eq (h : s.Sound d) : ∃ t, s.advance? d = some t := by
  obtain ⟨_, hd⟩ | ⟨_, hd⟩ := h.advances_or_delivers
  · exact ⟨_, hd.step⟩
  · exact ⟨_, hd.step⟩

/-- Every call comes to its end, with the first of the segments to come. -/
theorem Sound.exists_returns {d : Drain} (h : s.Sound d) :
    ∃ d', s.Returns d (s.rest d).head? d' ∧ s.Sound d' ∧ s.rest d' = (s.rest d).tail := by
  obtain ⟨d', hd⟩ | ⟨d', hd⟩ := h.advances_or_delivers
  · have hless := hd.less
    obtain ⟨d'', hreturns, hsound, hrest⟩ := hd.sound.exists_returns
    rw [hd.rest] at hreturns hrest
    exact ⟨d'', .goesOn hd.step hreturns, hsound, hrest⟩
  · exact ⟨d', .returns hd.step, hd.sound, hd.rest⟩
termination_by (d.lines.length, d.phase.rank s)
decreasing_by exact Prod.lex_def.mpr hless

theorem Sound.exists_yields (h : s.Sound d) (n : Nat) :
    ∃ d', s.Yields d ((List.range n).map fun i => (s.rest d)[i]?) d' := by
  induction n generalizing d with
  | zero => exact ⟨d, .nil d⟩
  | succ n ih =>
    obtain ⟨d', hreturns, hsound, hrest⟩ := h.exists_returns
    obtain ⟨d'', hyields⟩ := ih hsound
    rw [hrest] at hyields
    refine ⟨d'', ?_⟩
    rw [List.range_succ_eq_map, List.map_cons, List.map_map]
    rw [List.head?_eq_getElem?] at hreturns
    refine .cons hreturns ?_
    simpa [Function.comp_def] using hyields

theorem sound_drain (s : Scan) : s.Sound s.drain where
  lines := by
    intro line hline
    obtain ⟨i, hi, rfl⟩ := List.mem_map.mp hline
    rw [UInt32.toNat_ofNat_of_lt' (Nat.lt_trans (mem_lines.mp hi) s.lineCount_lt)]
    exact mem_lines.mp hi
  inRange := trivial
  tells := trivial

theorem rest_drain (s : Scan) : s.rest s.drain = s.segments := by
  have hspans : s.spansOf s.drain.lines = s.spans := by
    unfold spansOf drain spans
    rw [List.filterMap_map]
    refine List.filterMap_congr fun line hline => ?_
    have hlt := Nat.lt_trans (mem_lines.mp hline) s.lineCount_lt
    exact congrArg s.span? (UInt32.toNat_ofNat_of_lt' hlt)
  unfold rest segments strokes
  rw [← hspans]
  rfl

theorem Reached.sound (h : s.Reached d) : s.Sound d := by
  induction h with
  | start => exact s.sound_drain
  | goesOn _ hstep hs =>
    obtain ⟨_, hd⟩ | ⟨_, hd⟩ := hs.advances_or_delivers
    · obtain rfl := Step.goesOn.inj (Option.some.inj (hd.step.symm.trans hstep))
      exact hd.sound
    · cases hd.step.symm.trans hstep
  | returns _ hstep hs =>
    obtain ⟨_, hd⟩ | ⟨_, hd⟩ := hs.advances_or_delivers
    · cases hd.step.symm.trans hstep
    · obtain ⟨-, rfl⟩ := Step.returns.inj (Option.some.inj (hd.step.symm.trans hstep))
      exact hd.sound

theorem Sound.eq_none_of_returns (h : s.Sound d) {d'' : Drain} {g : Option Segment}
    (hnone : s.Returns d none d') (hg : s.Returns d' g d'') : g = none := by
  obtain ⟨_, hreturns, hsound, hrest⟩ := h.exists_returns
  obtain ⟨hhead, rfl⟩ := hnone.unique hreturns
  have hempty : s.rest d = [] := List.head?_eq_none_iff.mp hhead.symm
  obtain ⟨_, hreturns', -, -⟩ := hsound.exists_returns
  rw [hrest, hempty] at hreturns'
  exact (hg.unique hreturns').1

/-- At each state of a drain the counters are in range, the next step reads a pixel of the image if
any and computes no counter that leaves 32 bits, and the call under way comes to its end. The calls
return the segments of the scan in order and after the last nothing, however many follow. -/
theorem drain_in_range_and_ends (s : Scan) :
    (∀ d, s.Reached d → d.phase.InRange s ∧ (∃ t, s.advance? d = some t) ∧
      (∃ g d', s.Returns d g d') ∧
      ∀ d' g d'', s.Returns d none d' → s.Returns d' g d'' → g = none) ∧
    ∀ gs, (∃ d, s.Yields s.drain gs d) ↔
      gs = (List.range gs.length).map fun i => s.segments[i]? := by
  refine ⟨fun d hd => ?_, fun gs => ⟨?_, fun hgs => ?_⟩⟩
  · obtain ⟨d', hreturns, -, -⟩ := hd.sound.exists_returns
    exact ⟨hd.sound.inRange, hd.sound.exists_advance?_eq, ⟨_, d', hreturns⟩,
      fun d' g d'' hnone hg => hd.sound.eq_none_of_returns hnone hg⟩
  · rintro ⟨d, hd⟩
    obtain ⟨d', hd'⟩ := s.sound_drain.exists_yields gs.length
    rw [rest_drain] at hd'
    exact hd.unique hd' (by simp)
  · rw [hgs, ← rest_drain]
    exact s.sound_drain.exists_yields gs.length

def fromRight : Scan where
  image := ⟨2, 1, .luma, #[0, 0], #[], ⟨by decide, by decide, by decide, nofun, nofun⟩⟩
  traversal := .right
  overscan := 2
  offset := (1.0, 5.0)
  step := 3
  step_pos := by decide

theorem drain_in_range_and_ends_leftward :
    let d : Drain := ⟨[], false, true, [], .fallRun ⟨0, 0, 1, 2⟩ 1 0 (fromRight.sample 0 1)⟩
    fromRight.Reached d ∧ (d.phase.InRange fromRight ∧ (∃ t, fromRight.advance? d = some t) ∧
      (∃ g d', fromRight.Returns d g d') ∧
      ∀ d' g d'', fromRight.Returns d none d' → fromRight.Returns d' g d'' → g = none) ∧
    ∃ d, fromRight.Yields fromRight.drain
      ((List.range 5).map fun i => fromRight.segments[i]?) d := by
  intro d
  have h₁ : fromRight.Reached ⟨[], false, false, [], .seekFirst 0 0⟩ := .goesOn .start rfl
  have h₂ : fromRight.Reached ⟨[], false, false, [], .seekLast 0 0 2⟩ := .goesOn h₁ rfl
  have h₃ : fromRight.Reached ⟨[], false, true, [], .fall ⟨0, 0, 1, 2⟩ 1⟩ := .goesOn h₂ rfl
  have h₄ : fromRight.Reached
      ⟨[], false, true, [], .fallRun ⟨0, 0, 1, 2⟩ 1 1 (fromRight.sample 0 1)⟩ := .goesOn h₃ rfl
  have hd : fromRight.Reached d := .goesOn h₄ rfl
  exact ⟨hd, (drain_in_range_and_ends fromRight).1 d hd,
    ((drain_in_range_and_ends fromRight).2 _).mpr (by simp)⟩

end Scan
end Engraver
