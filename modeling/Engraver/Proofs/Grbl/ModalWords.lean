import Engraver.Proofs.Grbl.Axes
import Engraver.Proofs.Grbl.Lines

/-! # Modal words on one line

A line keeps the last of its `G` words. So a line with words of several modal groups does what its
last `G` word does on a line of its own, followed by a line with the coordinates. All the words on
lines of their own do the same if and only if those before the last select what is in force.
-/

namespace Engraver

/-- What one line leaves to the next. -/
structure Situation where
  modes : Modes
  incremental : Bool
  position : Float × Float

inductive ModalGroup where
  | units
  | distance
  | motion
  deriving DecidableEq

inductive ModalWord where
  | units (u : MeasurementSystem)
  | distance (incremental : Bool)
  | motion (k : MotionMode)

namespace Modes

/-- The feed scale is that of the units. -/
def FeedFits (m : Modes) : Prop :=
  m.feedScale = feedScaleFor m.scale

theorem FeedFits.after {m : Modes} (h : m.FeedFits) (b : Block) : (m.after b).FeedFits := by
  unfold Modes.after
  split
  · unfold applyG
    split <;> first | exact h | rfl
  · exact h

theorem FeedFits.afterIncoming {m : Modes} (h : m.FeedFits) (i : Incoming) :
    (m.afterIncoming i).FeedFits := by
  cases i with
  | realtime r => exact h
  | line b => exact h.after b

end Modes

namespace Situation

def move (signs : AxisSigns) (x y : Option Float) (s : Situation) : Situation :=
  if x.isSome || y.isSome then
    let x := Modes.coordinate s.modes.scale signs.x x
    let y := Modes.coordinate s.modes.scale signs.y y
    { s with position := Machine.destination s.incremental s.position x y }
  else s

theorem modes_move (signs : AxisSigns) (x y : Option Float) (s : Situation) :
    (s.move signs x y).modes = s.modes := by
  unfold move
  split <;> rfl

theorem incremental_move (signs : AxisSigns) (x y : Option Float) (s : Situation) :
    (s.move signs x y).incremental = s.incremental := by
  unfold move
  split <;> rfl

end Situation

namespace ModalWord

def group : ModalWord → ModalGroup
  | units _ => .units
  | distance _ => .distance
  | motion _ => .motion

def ofCode? : Int → Option ModalWord
  | 0 => some (motion .rapid)
  | 1 => some (motion .linear)
  | 2 => some (motion .arcClockwise)
  | 3 => some (motion .arcCounterclockwise)
  | 20 | 70 => some (units .imperial)
  | 21 | 71 => some (units .metric)
  | 90 => some (distance false)
  | 91 => some (distance true)
  | _ => none

def apply : ModalWord → Situation → Situation
  | units u, s => { s with modes := s.modes.withUnits u }
  | distance i, s => { s with incremental := i }
  | motion k, s => { s with modes := s.modes.withMotion k }

def Holds : ModalWord → Situation → Prop
  | units u, s => s.modes.units = u
  | distance i, s => s.incremental = i
  | motion k, s => s.modes.motion = k

def applyAll (ws : List ModalWord) (s : Situation) : Situation :=
  ws.foldl (fun s w => w.apply s) s

variable {s : Situation}

theorem holds_apply (w : ModalWord) (s : Situation) : w.Holds (w.apply s) := by
  cases w <;> rfl

theorem holds_apply_iff {v w : ModalWord} (h : v.group ≠ w.group) :
    w.Holds (v.apply s) ↔ w.Holds s := by
  cases v <;> cases w <;> first | exact Iff.rfl | exact absurd rfl h

theorem apply_of_holds (hs : s.modes.FeedFits) {w : ModalWord} (h : w.Holds s) :
    w.apply s = s := by
  obtain ⟨⟨u, feedScale, k⟩, incremental, position⟩ := s
  cases w <;> cases h
  · have hs : feedScale = Modes.feedScaleFor u.milsPerUnit := hs
    rw [hs]
    rfl
  all_goals rfl

theorem holds_move_iff (w : ModalWord) (signs : AxisSigns) (x y : Option Float) :
    w.Holds (s.move signs x y) ↔ w.Holds s := by
  cases w <;> simp only [Holds, s.modes_move, s.incremental_move]

theorem holds_applyAll_iff {ws : List ModalWord} {w : ModalWord}
    (h : w.group ∉ ws.map group) : w.Holds (applyAll ws s) ↔ w.Holds s := by
  induction ws generalizing s with
  | nil => rfl
  | cons v ws ih =>
    obtain ⟨hv, hws⟩ := not_or.mp (mt List.mem_cons.mpr h)
    exact (ih hws).trans (holds_apply_iff (Ne.symm hv))

/-- Words of different groups are all in force in the end. -/
theorem holds_applyAll {ws : List ModalWord} (h : (ws.map group).Nodup) {w : ModalWord}
    (hw : w ∈ ws) : w.Holds (applyAll ws s) := by
  induction ws generalizing s with
  | nil => cases hw
  | cons v ws ih =>
    obtain ⟨hv, hws⟩ := List.nodup_cons.mp h
    rcases List.mem_cons.mp hw with rfl | hw
    · exact (holds_applyAll_iff hv).mpr (w.holds_apply s)
    · exact ih hws hw

theorem applyAll_of_holds (hs : s.modes.FeedFits) {ws : List ModalWord}
    (h : ∀ w ∈ ws, w.Holds s) : applyAll ws s = s := by
  induction ws with
  | nil => rfl
  | cons w ws ih =>
    obtain ⟨hw, hws⟩ := List.forall_mem_cons.mp h
    change applyAll ws (w.apply s) = s
    rw [apply_of_holds hs hw, ih hws]

/-- Of words of different groups, and a move behind them, the last alone does the same if and only
if the others are in force. -/
theorem move_apply_eq_iff (hs : s.modes.FeedFits) {ws : List ModalWord} {w : ModalWord}
    (h : ((ws ++ [w]).map group).Nodup) (signs : AxisSigns) (x y : Option Float) :
    (w.apply s).move signs x y = (applyAll (ws ++ [w]) s).move signs x y ↔
      ∀ v ∈ ws, v.Holds s := by
  constructor
  · intro heq v hv
    have hne : w.group ≠ v.group := by
      rw [List.map_append] at h
      exact ((List.nodup_append.mp h).2.2 _ (List.mem_map_of_mem hv) _
        (List.mem_singleton_self _)).symm
    have hall : v.Holds ((applyAll (ws ++ [w]) s).move signs x y) :=
      (v.holds_move_iff ..).mpr (holds_applyAll h (List.mem_append_left _ hv))
    rwa [← heq, holds_move_iff, holds_apply_iff hne] at hall
  · intro hall
    rw [applyAll, List.foldl_append]
    change _ = (w.apply (applyAll ws s)).move signs x y
    rw [applyAll_of_holds hs hall]

end ModalWord

namespace Block

def codeOf? (v : Float) : Option Int :=
  let n := Binary.ofFloat v
  if n.isInteger then some (n.saturate .int64) else none

theorem code?_eq (b : Block) (letter : Char) : b.code? letter = (b.get? letter).bind codeOf? := by
  unfold code?
  cases b.get? letter <;> rfl

end Block

namespace ModalWord

def ofNumber? (v : Float) : Option ModalWord :=
  (Block.codeOf? v).bind ofCode?

/-- The selection of a block from a modal group is what its `G` word applies. -/
theorem apply_eq {w : ModalWord} {b : Block} (h : (b.code? 'g').bind ofCode? = some w)
    (s : Situation) :
    w.apply s = ⟨s.modes.after b, b.incrementalAfter s.incremental, s.position⟩ := by
  obtain ⟨g, hg, hw⟩ := Option.bind_eq_some_iff.mp h
  unfold Modes.after Block.incrementalAfter
  rw [hg]
  unfold ofCode? at hw
  split at hw <;> first | (cases hw; rfl) | cases hw

theorem ne_home {w : ModalWord} {b : Block} (h : (b.code? 'g').bind ofCode? = some w) :
    b.code? 'g' ≠ some 28 := by
  intro hg
  rw [hg] at h
  cases h

end ModalWord

namespace Emulator

def situation (e : Emulator) : Situation :=
  ⟨e.modes, e.machine.incremental, e.machine.position⟩

/-- A block without `G28` and `M30` changes the modes and the positioning, then moves. -/
theorem situation_execute (e : Emulator) {b : Block} (hg : b.code? 'g' ≠ some 28)
    (hm : b.code? 'm' ≠ some 30) :
    (e.execute b).situation = Situation.move e.signs (b.get? 'x') (b.get? 'y')
      ⟨e.modes.after b, b.incrementalAfter e.machine.incremental, e.machine.position⟩ := by
  obtain ⟨hi, hp⟩ := e.place_execute hg hm
  unfold situation Situation.move
  rw [hi, hp]
  exact apply_ite (Situation.mk (e.modes.after b) (b.incrementalAfter e.machine.incremental)) ..

/-- What an emulator becomes: bytes are written, replies are read, blocks are executed, and the
machine may be changed from elsewhere. -/
inductive Reachable : Emulator → Prop
  | start (c : EmulatorConfig) (m : Machine) : Reachable (start c m)
  | writeByte {e : Emulator} (b : UInt8) : Reachable e → Reachable (e.writeByte b)
  | read {e : Emulator} : Reachable e → Reachable e.read.2
  | execute {e : Emulator} (b : Block) : Reachable e → Reachable (e.execute b)
  | drive {e : Emulator} (m : Machine) : Reachable e → Reachable { e with machine := m }

def AtLineStart (e : Emulator) : Prop :=
  ∃ comment, e.reader = .between comment

theorem Reachable.write {e : Emulator} (h : e.Reachable) (bs : List UInt8) :
    (e.write bs).Reachable := by
  induction bs generalizing e with
  | nil => exact h
  | cons b bs ih => exact ih (h.writeByte b)

theorem Reachable.feedFits {e : Emulator} (h : e.Reachable) : e.modes.FeedFits := by
  induction h with
  | start c m => rfl
  | @writeByte e b _ ih =>
    have hmodes := e.write_modes [b]
    rw [write_cons, write_nil] at hmodes
    rw [hmodes]
    exact List.foldlRecOn _ _ ih fun m hm i _ => hm.afterIncoming i
  | read _ ih => exact ih
  | execute b _ ih => exact ih.after b
  | drive m _ ih => exact ih

end Emulator

def lineWords (l : List UInt8) : List (Char × Float) :=
  LineText.keptWords (LineText.words (LineText.codeText (LineParts.ofLine l).code))

/-- The bytes are a finished line that carries these words. -/
def Carries (bytes : List UInt8) (words : List (Char × Float)) : Prop :=
  ∃ l t, bytes = l ++ [t] ∧ (∀ b ∈ l, LineByte b) ∧ ByteKind.isLineEnd t ∧ lineWords l = words

def CarriesOnly (bytes : List UInt8) (word : Char × Float) : Prop :=
  Carries bytes [word]

def lastNumber (words : List (Char × Float)) (letter : Char) : Option Float :=
  (words.filter fun w => w.1 = letter).getLast?.map (·.2)

/-- `G` words of different modal groups, which make these selections in order, and coordinates. -/
structure ModalLine (words : List (Char × Float)) (selections : List ModalWord) : Prop where
  letters : ∀ w ∈ words, w.1 = 'g' ∨ w.1 = 'x' ∨ w.1 = 'y'
  modal : (words.filter (·.1 = 'g')).map (ModalWord.ofNumber? ·.2) = selections.map some
  groups : (selections.map ModalWord.group).Nodup

theorem lastNumber_filter {words : List (Char × Float)} {letter : Char} (h : letter ≠ 'g') :
    lastNumber (words.filter (·.1 ≠ 'g')) letter = lastNumber words letter := by
  unfold lastNumber
  rw [List.filter_filter]
  congr 2
  refine List.filter_congr fun w _ => ?_
  by_cases hw : w.1 = letter <;> simp [hw, h]

theorem ModalLine.lastNumber_eq_none {words : List (Char × Float)} {selections : List ModalWord}
    (h : ModalLine words selections) : lastNumber words 'm' = none := by
  have hnil : words.filter (fun w => w.1 = 'm') = [] := List.filter_eq_nil_iff.mpr fun w hw => by
    rcases h.letters w hw with h | h | h <;> simp [h]
  rw [lastNumber, hnil]
  rfl

theorem ModalLine.exists_last {words : List (Char × Float)} {selections : List ModalWord}
    {selection : ModalWord} (h : ModalLine words (selections ++ [selection])) :
    ∃ word, (words.filter (·.1 = 'g')).getLast? = some word ∧ word.1 = 'g' ∧
      ModalWord.ofNumber? word.2 = some selection := by
  have hlast := congrArg List.getLast? h.modal
  rw [List.getLast?_map, List.map_append, List.map_singleton, List.getLast?_concat] at hlast
  obtain ⟨word, hword, hselection⟩ := Option.map_eq_some_iff.mp hlast
  refine ⟨word, hword, ?_, hselection⟩
  simpa using List.of_mem_filter (List.mem_of_getLast? hword)

theorem rel_of_forall₂_concat {α β : Type} {r : α → β → Prop} {as : List α} {a : α} {bs : List β}
    {b : β} (h : (as ++ [a]).Forall₂ r bs) (hb : bs.getLast? = some b) : r a b := by
  rw [← List.forall₂_reverse_iff, List.reverse_concat] at h
  obtain ⟨b', bs', hr, -, hbs⟩ := List.forall₂_cons_left_iff.mp h
  rw [← List.head?_reverse, hbs] at hb
  cases hb
  exact hr

namespace Emulator

variable {e : Emulator} {bytes : List UInt8} {words : List (Char × Float)}

theorem exists_block_of_carries (he : e.AtLineStart) (h : Carries bytes words) :
    (e.write bytes).AtLineStart ∧ ∃ b : Block,
      (e.write bytes).situation = (e.execute b).situation ∧
      ∀ letter, b.get? letter = lastNumber words letter := by
  obtain ⟨comment, hreader⟩ := he
  obtain ⟨l, t, rfl, hl, ht, rfl⟩ := h
  have hfeed := LineReader.feedAll_finished hl ht comment []
  rw [← hreader] at hfeed
  rw [e.write_eq, hfeed]
  exact ⟨⟨_, rfl⟩, LineText.lineBlock l, rfl, LineText.get?_lineBlock l⟩

theorem situation_write_of_carries (he : e.AtLineStart) (h : Carries bytes words)
    (hm : lastNumber words 'm' = none) {w : ModalWord}
    (hw : (lastNumber words 'g').bind ModalWord.ofNumber? = some w) :
    (e.write bytes).situation =
      (w.apply e.situation).move e.signs (lastNumber words 'x') (lastNumber words 'y') := by
  obtain ⟨-, b, hb, hget⟩ := exists_block_of_carries he h
  have hg : (b.code? 'g').bind ModalWord.ofCode? = some w := by
    rw [b.code?_eq, hget, Option.bind_assoc]
    exact hw
  have hm : b.code? 'm' ≠ some 30 := by simp [b.code?_eq, hget, hm]
  rw [hb, e.situation_execute (ModalWord.ne_home hg) hm, hget, hget, ModalWord.apply_eq hg]
  rfl

theorem situation_write_coordinates (he : e.AtLineStart) (h : Carries bytes words)
    (hm : lastNumber words 'm' = none) (hg : lastNumber words 'g' = none) :
    (e.write bytes).situation =
      e.situation.move e.signs (lastNumber words 'x') (lastNumber words 'y') := by
  obtain ⟨-, b, hb, hget⟩ := exists_block_of_carries he h
  have hg : b.code? 'g' = none := by simp [b.code?_eq, hget, hg]
  have hm : b.code? 'm' ≠ some 30 := by simp [b.code?_eq, hget, hm]
  rw [hb, e.situation_execute (by simp [hg]) hm, hget, hget, Modes.after, Block.incrementalAfter,
    hg]
  rfl

theorem situation_write_word {word : Char × Float} (he : e.AtLineStart) (h : CarriesOnly bytes word)
    (hg : word.1 = 'g') {w : ModalWord} (hw : ModalWord.ofNumber? word.2 = some w) :
    (e.write bytes).situation = w.apply e.situation := by
  obtain ⟨letter, v⟩ := word
  obtain rfl : letter = 'g' := hg
  exact situation_write_of_carries he h rfl hw

/-- Lines with one `G` word each make their selections in order. -/
theorem situation_write_singles {singles : List (List UInt8)} {selections : List ModalWord}
    (he : e.AtLineStart) (hsingles : singles.Forall₂ CarriesOnly words)
    (hletter : ∀ w ∈ words, w.1 = 'g')
    (hmodal : words.map (ModalWord.ofNumber? ·.2) = selections.map some) :
    (e.write singles.flatten).AtLineStart ∧
      (e.write singles.flatten).situation = ModalWord.applyAll selections e.situation := by
  induction hsingles generalizing e selections with
  | nil =>
    obtain rfl : selections = [] := by simpa using hmodal.symm
    exact ⟨he, rfl⟩
  | @cons bytes word singles words hcarries _ ih =>
    obtain ⟨hword, hletters⟩ := List.forall_mem_cons.mp hletter
    obtain ⟨w, selections, rfl, hw, hmodals⟩ := List.map_eq_cons_iff.mp hmodal.symm
    have hfirst := situation_write_word he hcarries hword hw.symm
    obtain ⟨hstart, hrest⟩ := ih (exists_block_of_carries he hcarries).1 hletters hmodals.symm
    rw [List.flatten_cons, write_append]
    refine ⟨hstart, hrest.trans ?_⟩
    rw [hfirst]
    rfl

theorem situation_write_axes {selections : List ModalWord} (he : e.AtLineStart)
    (hwords : ModalLine words selections) (h : Carries bytes (words.filter (·.1 ≠ 'g'))) :
    (e.write bytes).situation =
      e.situation.move e.signs (lastNumber words 'x') (lastNumber words 'y') := by
  have hm := (lastNumber_filter (by decide)).trans hwords.lastNumber_eq_none
  have hg : lastNumber (words.filter (·.1 ≠ 'g')) 'g' = none := by simp [lastNumber]
  rw [situation_write_coordinates he h hm hg, lastNumber_filter (by decide),
    lastNumber_filter (by decide)]

/-- On one line the last `G` word counts. A line of `G` words of different modal groups and
coordinates does what the last of these words does on a line of its own, followed by the
coordinates. That is what all of them do on lines of their own if and only if each word before the
last selects what is in force. -/
theorem situation_write_modalLine (he : e.Reachable) (hstart : e.AtLineStart)
    {selections : List ModalWord} {selection : ModalWord}
    (hwords : ModalLine words (selections ++ [selection]))
    {line last coordinates : List UInt8} {others : List (List UInt8)} (hline : Carries line words)
    (hsingles : (others ++ [last]).Forall₂ CarriesOnly (words.filter (·.1 = 'g')))
    (hcoordinates : Carries coordinates (words.filter (·.1 ≠ 'g'))) :
    (e.write line).situation = (e.write (last ++ coordinates)).situation ∧
    ((e.write line).situation = (e.write ((others ++ [last]).flatten ++ coordinates)).situation ↔
      ∀ w ∈ selections, w.Holds e.situation) := by
  obtain ⟨word, hword, hletter, hselection⟩ := hwords.exists_last
  have hlast : CarriesOnly last word := rel_of_forall₂_concat hsingles hword
  have hlineSituation : (e.write line).situation =
      (selection.apply e.situation).move e.signs (lastNumber words 'x') (lastNumber words 'y') :=
    situation_write_of_carries hstart hline hwords.lastNumber_eq_none (by
      rw [lastNumber, hword]
      exact hselection)
  obtain ⟨hallStart, hall⟩ := situation_write_singles hstart hsingles
    (fun w hw => by simpa using List.of_mem_filter hw) hwords.modal
  constructor
  · have hlastStart := (exists_block_of_carries hstart hlast).1
    rw [hlineSituation, write_append, situation_write_axes hlastStart hwords hcoordinates,
      situation_write_word hstart hlast hletter hselection, write_signs]
  · rw [hlineSituation, write_append, situation_write_axes hallStart hwords hcoordinates, hall,
      write_signs]
    exact ModalWord.move_apply_eq_iff he.feedFits hwords.groups ..

theorem situation_write_modalLine_absolute :
    let before := "G91X5\n".toUTF8.toList
    let e := (start .default (.fresh true)).write before
    let line := "G21 g90 X2 (right) Y-3\n".toUTF8.toList
    let units := "G21\n".toUTF8.toList
    let last := "G90\n".toUTF8.toList
    let coordinates := "X2Y-3\n".toUTF8.toList
    (e.write line).situation = (e.write (last ++ coordinates)).situation ∧
      (e.write line).situation = (e.write ([units, last].flatten ++ coordinates)).situation := by
  intro before e line units last coordinates
  have hbefore : Carries before [('g', 91.0), ('x', 5.0)] :=
    ⟨before.dropLast, 0x0a, by decide +kernel, by decide +kernel, rfl, by decide +kernel⟩
  have hwords : ModalLine [('g', 21.0), ('g', 90.0), ('x', 2.0), ('y', -3.0)]
      ([.units .metric] ++ [.distance false]) := ⟨by decide, rfl, by decide⟩
  have hline : Carries line [('g', 21.0), ('g', 90.0), ('x', 2.0), ('y', -3.0)] :=
    ⟨line.dropLast, 0x0a, by decide +kernel, by decide +kernel, rfl, by decide +kernel⟩
  have hunits : CarriesOnly units ('g', 21.0) :=
    ⟨units.dropLast, 0x0a, by decide +kernel, by decide +kernel, rfl, by decide +kernel⟩
  have hlast : CarriesOnly last ('g', 90.0) :=
    ⟨last.dropLast, 0x0a, by decide +kernel, by decide +kernel, rfl, by decide +kernel⟩
  have hcoordinates : Carries coordinates [('x', 2.0), ('y', -3.0)] :=
    ⟨coordinates.dropLast, 0x0a, by decide +kernel, by decide +kernel, rfl, by decide +kernel⟩
  have hsingles : ([units] ++ [last]).Forall₂ CarriesOnly [('g', 21.0), ('g', 90.0)] :=
    .cons hunits (.cons hlast .nil)
  have hreachable : e.Reachable := (Reachable.start .default (.fresh true)).write before
  have hstart : e.AtLineStart := (exists_block_of_carries ⟨none, rfl⟩ hbefore).1
  have hmetric : e.modes.units = .metric := by decide +kernel
  obtain ⟨hlastOnly, hiff⟩ :=
    situation_write_modalLine hreachable hstart hwords hline hsingles hcoordinates
  exact ⟨hlastOnly, hiff.mpr (List.forall_mem_singleton.mpr hmetric)⟩

/-- A line that selects imperial units and a linear motion stays metric. -/
theorem situation_write_modalLine_ne :
    let e := start .default (.fresh true)
    let line := e.write "G20G1X1\n".toUTF8.toList
    let separate := e.write "G20\nG1\nX1\n".toUTF8.toList
    line.modes.units ≠ separate.modes.units ∧
      line.machine.position ≠ separate.machine.position := by
  decide +kernel

end Emulator
end Engraver
