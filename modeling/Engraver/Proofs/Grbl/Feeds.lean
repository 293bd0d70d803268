import Engraver.Proofs.Grbl.RapidMoves
import Engraver.Proofs.Job.Outcome

/-! # Feeds in the units in force

The feed scale follows from the units, but it is kept beside them. A line changes both or neither,
so after any stream it is that of the units which the last line with a unit word has selected. Then
`G94` changes nothing, a feed is scaled by the units from before its own line, and a report is
divided by the scales of one system.
-/

namespace Engraver

namespace MeasurementSystem

def ofCode? : Int → Option MeasurementSystem
  | 20 | 70 => some imperial
  | 21 | 71 => some metric
  | _ => none

end MeasurementSystem

namespace Block

variable {b : Block}

/-- The units that the `G` word of a block selects. -/
def units? (b : Block) : Option MeasurementSystem :=
  (b.code? 'g').bind MeasurementSystem.ofCode?

def withoutG (b : Block) : Block :=
  { b with fields := b.fields.erase 'g' }

theorem get?_withoutG (b : Block) (letter : Char) :
    b.withoutG.get? letter = if letter = 'g' then none else b.get? letter :=
  b.fields.get?_erase 'g' letter

theorem code?_withoutG_g (b : Block) : b.withoutG.code? 'g' = none := by
  rw [code?_eq, get?_withoutG, if_pos rfl]
  rfl

theorem code?_withoutG {letter : Char} (h : letter ≠ 'g') :
    b.withoutG.code? letter = b.code? letter := by
  rw [code?_eq, code?_eq, get?_withoutG, if_neg h]

theorem contains_withoutG {letter : Char} (h : letter ≠ 'g') :
    b.withoutG.contains letter = b.contains letter := by
  change (b.withoutG.get? letter).isSome = (b.get? letter).isSome
  rw [get?_withoutG, if_neg h]

end Block

namespace Modes

variable {signs : AxisSigns} {m : Modes} {b : Block}

theorem units_after (m : Modes) (b : Block) : (m.after b).units = b.units?.getD m.units := by
  unfold after Block.units?
  cases b.code? 'g' with
  | none => rfl
  | some g =>
    change (m.applyG g).units = (MeasurementSystem.ofCode? g).getD m.units
    unfold applyG
    split
    case h_10 => simp [MeasurementSystem.ofCode?, *]
    all_goals rfl

theorem units_foldl_after (m : Modes) (bs : List Block) :
    (bs.foldl after m).units = (bs.filterMap Block.units?).getLastD m.units := by
  induction bs generalizing m with
  | nil => rfl
  | cons b bs ih =>
    rw [List.foldl_cons, ih, units_after]
    cases h : b.units? with
    | none => rw [List.filterMap_cons_none h]; rfl
    | some u => rw [List.filterMap_cons_some h, List.getLastD_cons]; rfl

theorem speeds_wordCommand {f : Float → Command} (hf : ∀ v, (f v).speed? = none)
    (v : Option Float) : (wordCommand f v).filterMap Command.speed? = [] := by
  cases v with
  | none => rfl
  | some v => exact List.filterMap_cons_none (hf v)

theorem speeds_gCommands (b : Block) (g : Int) :
    (gCommands b g).filterMap Command.speed? = [] := by
  unfold gCommands
  split
  · have hp := speeds_wordCommand (f := fun p => .wait (p / 1000.0)) (fun _ => rfl) (b.get? 'p')
    have hs := speeds_wordCommand (f := .wait) (fun _ => rfl) (b.get? 's')
    rw [dwell, List.filterMap_append, List.filterMap_append, hp, hs]
    rfl
  all_goals rfl

theorem speeds_mCommands (n : Int) : (mCommands n).filterMap Command.speed? = [] := by
  unfold mCommands
  split <;> rfl

theorem speeds_moveCommands (signs : AxisSigns) (m : Modes) (b : Block) :
    (moveCommands signs m b).filterMap Command.speed? = [] := by
  unfold moveCommands approach
  split
  · split <;> rfl
  · rfl

theorem speeds_opening (m : Modes) (b : Block) :
    (m.opening b).filterMap Command.speed? =
      ((b.get? 'f').map (m.feedScale * ·)).toList := by
  have hg : (((b.code? 'g').map (gCommands b)).getD []).filterMap Command.speed? = [] := by
    cases b.code? 'g' with
    | none => rfl
    | some g => exact speeds_gCommands b g
  rw [opening, List.filterMap_append, hg, List.append_nil]
  cases b.get? 'f' <;> rfl

/-- The only speed that a block sets is its feed, at the scale from before the block. -/
theorem speeds_commands (signs : AxisSigns) (m : Modes) (b : Block) :
    (m.commands signs b).filterMap Command.speed? =
      ((b.get? 'f').map (m.feedScale * ·)).toList := by
  by_cases hm : b.code? 'm' = some 30
  · rw [commands_of_end hm, speeds_opening]
  · have hn : (((b.code? 'm').map mCommands).getD []).filterMap Command.speed? = [] := by
      cases b.code? 'm' with
      | none => rfl
      | some n => exact speeds_mCommands n
    rw [commands_of_not_end hm, List.filterMap_append, List.filterMap_append, hn,
      speeds_moveCommands, speeds_opening, List.append_nil, List.append_nil]

theorem FeedFits.after_of_feedRate (h : m.FeedFits) (hg : b.code? 'g' = some 94) :
    m.after b = m := by
  obtain ⟨units, feedScale, motion⟩ := m
  unfold Modes.after
  rw [hg]
  exact congrArg (Modes.mk units · motion) h.symm

theorem after_withoutG (m : Modes) (b : Block) : m.after b.withoutG = m := by
  unfold after
  rw [b.code?_withoutG_g]

theorem moveCommands_withoutG (signs : AxisSigns) (m : Modes) (b : Block) :
    moveCommands signs m b.withoutG = moveCommands signs m b := by
  have hx : b.withoutG.get? 'x' = b.get? 'x' := b.get?_withoutG 'x'
  have hy : b.withoutG.get? 'y' = b.get? 'y' := b.get?_withoutG 'y'
  unfold moveCommands
  rw [Block.contains_withoutG (by decide), Block.contains_withoutG (by decide), hx, hy]

theorem FeedFits.commands_withoutG (h : m.FeedFits) (hg : b.code? 'g' = some 94) :
    m.commands signs b.withoutG = m.commands signs b := by
  have hf : b.withoutG.get? 'f' = b.get? 'f' := b.get?_withoutG 'f'
  unfold Modes.commands
  rw [moveCommands_withoutG, after_withoutG, h.after_of_feedRate hg, b.code?_withoutG_g, hg,
    Block.code?_withoutG (by decide), hf]
  rfl

end Modes

namespace LineText

def unitWord? (line : List UInt8) : Option MeasurementSystem :=
  ((lastNumber (lineWords line) 'g').bind Block.codeOf?).bind MeasurementSystem.ofCode?

/-- The units that the last finished line with a unit word selects; at first metric. -/
def unitsInForce (bs : List UInt8) : MeasurementSystem :=
  ((finished bs).filterMap unitWord?).getLastD .metric

def feedWord? (line : List UInt8) : Option Float :=
  lastNumber (lineWords line) 'f'

theorem units?_lineBlock (line : List UInt8) : (lineBlock line).units? = unitWord? line := by
  rw [Block.units?, Block.code?_eq, get?_lineBlock]
  rfl

end LineText

namespace Emulator

open LineText

variable {e : Emulator} {b : Block}

theorem execute_withoutG (h : e.modes.FeedFits) (hg : b.code? 'g' = some 94) :
    e.execute b = e.execute b.withoutG := by
  unfold execute
  rw [h.after_of_feedRate hg, Modes.after_withoutG, h.commands_withoutG hg]

variable {c : EmulatorConfig} {m : Machine} {bs : List UInt8}

theorem units_write : ((start c m).write bs).modes.units = unitsInForce bs := by
  have hblocks : (((start c m).reader.feedAll bs).2.filterMap Incoming.block?) =
      (finished bs).map lineBlock := (feedAll_fresh bs).2
  rw [write_modes, Modes.foldl_afterIncoming, hblocks, Modes.units_foldl_after,
    List.filterMap_map]
  exact congrArg (List.getLastD · _) (List.filterMap_congr fun l _ => units?_lineBlock l)

theorem feedScale_write :
    ((start c m).write bs).modes.feedScale =
      Modes.feedScaleFor (unitsInForce bs).milsPerUnit := by
  have hfits : ((start c m).write bs).modes.FeedFits := ((Reachable.start c m).write bs).feedFits
  rw [hfits, Modes.scale, units_write]

theorem speeds_write (t : UInt8) :
    (Call.commands (((start c m).write bs).calls [t])).filterMap Command.speed? =
      if ByteKind.isLineEnd t then
        ((feedWord? (unfinished bs)).map
          (Modes.feedScaleFor (unitsInForce bs).milsPerUnit * ·)).toList
      else [] := by
  split
  · next ht =>
    rw [calls_lineEnd ht, Call.commands_map_command, Modes.speeds_commands, feedScale_write,
      get?_lineBlock]
    rfl
  · next ht =>
    have hnone : Call.commands (((start c m).write bs).calls [t]) = [] := by
      refine List.filterMap_eq_nil_iff.mpr ?_
      rintro (d | s) hd
      · exact absurd hd (command_notMem_calls _ (Bool.eq_false_iff.mpr ht) d)
      · rfl
    rw [hnone]
    rfl

/-- `G20` on the line of a feed is too late for it. -/
example :
    (Call.commands (((start .default (.fresh true)).write "G20 F10".toUTF8.toList).calls [0x0a])
      ).filterMap Command.speed? = [Modes.feedScaleFor milsPerMillimetre * 10.0] := by
  decide +kernel

/-- Whatever is written to a new emulator, its feed scale is that of the units that the last line
with a unit word has selected. So a line with `G94` does what it does without this word, and alone
nothing. A byte calls for a speed only if it ends a line with a feed: that feed, at the scale of the
units from before the line. A report, which answers a query, divides position and feed by the scales
of the units in force. -/
theorem feed_scale_follows_units (c : EmulatorConfig) (m : Machine) (bs : List UInt8) :
    let e := (start c m).write bs
    let u := unitsInForce bs
    (e.modes.units = u ∧ e.modes.feedScale = Modes.feedScaleFor u.milsPerUnit) ∧
    (∀ b : Block, b.code? 'g' = some 94 → e.execute b = e.execute b.withoutG) ∧
    (∀ comment, e.execute ⟨.ofList [('g', 94.0)], comment⟩ = e) ∧
    (∀ t, (e.writeByte t).machine = e.machine.obeyAll (e.calls [t]) ∧
      (Call.commands (e.calls [t])).filterMap Command.speed? =
        if ByteKind.isLineEnd t then
          ((feedWord? (unfinished bs)).map (Modes.feedScaleFor u.milsPerUnit * ·)).toList
        else []) ∧
    e.report =
      { state := e.machine.state.name
        x := e.machine.position.1 / u.milsPerUnit
        y := e.machine.position.2 / u.milsPerUnit
        z := 0.0
        feed := e.machine.speed / Modes.feedScaleFor u.milsPerUnit
        power := (Binary.ofFloat e.machine.power).saturate .int64 } ∧
    (e.writeByte RealtimeByte.statusQuery.toByte).reply = some e.report.format := by
  intro e u
  have hunits : e.modes.units = u := units_write
  have hscale : e.modes.feedScale = Modes.feedScaleFor u.milsPerUnit := feedScale_write
  have hfits : e.modes.FeedFits := ((Reachable.start c m).write bs).feedFits
  refine ⟨⟨hunits, hscale⟩, fun b => execute_withoutG hfits, ?_,
    fun t => ⟨e.write_machine [t], speeds_write t⟩, ?_, ?_⟩
  · intro comment
    have hnumber : (some (94.0 : Float)).bind Block.codeOf? = some 94 := by decide
    exact execute_withoutG hfits ((Block.code?_eq ..).trans hnumber)
  · rw [report, Modes.scale, hunits, hscale]
  · rw [reply_writeByte, if_neg (by decide), if_pos rfl]

theorem feed_scale_follows_units_inches :
    let e := (start .default (.fresh true)).write "F10 (G21) G20\nG1 X2?".toUTF8.toList
    let b : Block := ⟨.ofList [('g', 94.0), ('f', 12.0), ('m', 3.0), ('x', 2.0)], some "feed"⟩
    b.code? 'g' = some 94 ∧ e.execute b = e.execute b.withoutG := by
  intro e b
  have hg : b.code? 'g' = some 94 := by decide
  exact ⟨hg, (feed_scale_follows_units .default (.fresh true) _).2.1 b hg⟩

end Emulator
end Engraver
