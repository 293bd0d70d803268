import Engraver.Grbl.Emulator
import Engraver.Proofs.Number.Bits

/-! # Axes that a block does not name

A block sends zero for an axis that it does not name. Under incremental positioning that leaves
the axis where it is, up to the sign of zero; under absolute positioning it moves the axis to zero.
-/

namespace Engraver

namespace Command

def isStill : Command → Bool
  | setAbsolute | setIncremental | move .. | home | reset => false
  | _ => true

end Command

namespace Machine

theorem record_eq (m : Machine) (c : Command) :
    (m.record c).position = m.position ∧ (m.record c).incremental = m.incremental :=
  ⟨m.position_record c, m.incremental_record c⟩

theorem execute_still (m : Machine) {c : Command} (h : c.isStill) :
    (m.execute c).position = m.position ∧ (m.execute c).incremental = m.incremental := by
  obtain ⟨hp, hi⟩ := (m.perform c).record_eq c
  rw [execute, hp, hi]
  cases c <;> first | exact ⟨rfl, rfl⟩ | cases h

theorem run_still (m : Machine) {cs : List Command} (h : cs.all Command.isStill) :
    (m.run cs).position = m.position ∧ (m.run cs).incremental = m.incremental := by
  induction cs generalizing m with
  | nil => exact ⟨rfl, rfl⟩
  | cons c cs ih =>
    obtain ⟨hc, hcs⟩ := Bool.and_eq_true_iff.mp h
    obtain ⟨hp, hi⟩ := m.execute_still hc
    obtain ⟨ihp, ihi⟩ := ih (m.execute c) hcs
    exact ⟨ihp.trans hp, ihi.trans hi⟩

/-- Where a move leads from a point. -/
def destination (incremental : Bool) (p : Float × Float) (x y : Float) : Float × Float :=
  if incremental then (p.1 + x, p.2 + y) else (x, y)

theorem execute_move (m : Machine) (x y : Float) :
    (m.execute (.move x y)).position = destination m.incremental m.position x y ∧
      (m.execute (.move x y)).incremental = m.incremental :=
  (m.perform (.move x y)).record_eq _

end Machine

namespace Block

/-- The positioning after the `G` word of a block; true is incremental. -/
def incrementalAfter (b : Block) (incremental : Bool) : Bool :=
  match b.code? 'g' with
  | some 90 => false
  | some 91 => true
  | _ => incremental

end Block

namespace Modes

theorem all_isStill_wordCommand {f : Float → Command} (hf : ∀ v, (f v).isStill)
    (v : Option Float) : (wordCommand f v).all Command.isStill := by
  cases v with
  | none => rfl
  | some v => exact Bool.and_eq_true_iff.mpr ⟨hf v, rfl⟩

theorem all_isStill_dwell (b : Block) : (dwell b).all Command.isStill := by
  have hp := all_isStill_wordCommand (f := fun p => .wait (p / 1000.0)) (fun _ => rfl) (b.get? 'p')
  have hs := all_isStill_wordCommand (f := .wait) (fun _ => rfl) (b.get? 's')
  rw [dwell, List.all_append, List.all_append, hp, hs]
  rfl

theorem all_isStill_mCommands (n : Int) : (mCommands n).all Command.isStill := by
  unfold mCommands
  split <;> rfl

theorem all_isStill_approach (m : Modes) : m.approach.all Command.isStill := by
  unfold approach
  split <;> rfl

theorem run_gCommands (m : Machine) {b : Block} (hg : b.code? 'g' ≠ some 28) :
    (m.run (((b.code? 'g').map (gCommands b)).getD [])).position = m.position ∧
      (m.run (((b.code? 'g').map (gCommands b)).getD [])).incremental =
        b.incrementalAfter m.incremental := by
  unfold Block.incrementalAfter
  cases hc : b.code? 'g' with
  | none => exact ⟨rfl, rfl⟩
  | some g =>
    simp only [Option.map_some, Option.getD_some]
    unfold gCommands
    split
    · exact m.run_still (all_isStill_dwell b)
    · exact absurd hc hg
    · exact ((m.perform .setAbsolute).record_eq _)
    · exact ((m.perform .setIncremental).record_eq _)
    · next h90 h91 =>
      refine ⟨rfl, ?_⟩
      split
      · next h => exact absurd (Option.some.inj h) h90
      · next h => exact absurd (Option.some.inj h) h91
      · rfl

/-- The move of a block that names an axis, without what comes before it. -/
def moves (signs : AxisSigns) (m : Modes) (b : Block) : List Command :=
  if b.contains 'x' || b.contains 'y' then
    [.move (coordinate m.scale signs.x (b.get? 'x')) (coordinate m.scale signs.y (b.get? 'y'))]
  else []

theorem exists_moveCommands_eq (signs : AxisSigns) (m : Modes) (b : Block) :
    ∃ cs : List Command, cs.all Command.isStill ∧
      moveCommands signs m b = cs ++ moves signs m b := by
  unfold moveCommands moves
  split
  · exact ⟨_, m.all_isStill_approach, rfl⟩
  · exact ⟨[], rfl, rfl⟩

theorem exists_commands_eq (signs : AxisSigns) (m : Modes) {b : Block}
    (hm : b.code? 'm' ≠ some 30) :
    ∃ cs : List Command, cs.all Command.isStill ∧
      m.commands signs b =
        wordCommand (fun f => .setSpeed (m.feedScale * f)) (b.get? 'f')
          ++ ((b.code? 'g').map (gCommands b)).getD [] ++ cs ++ moves signs (m.after b) b := by
  obtain ⟨cs, hcs, hmove⟩ := exists_moveCommands_eq signs (m.after b) b
  unfold commands
  rw [hmove]
  split
  · next hc => exact absurd hc hm
  · next c _ _ =>
    refine ⟨mCommands c ++ cs, ?_, ?_⟩
    · rw [List.all_append, all_isStill_mCommands, hcs]
      rfl
    · simp only [List.append_assoc]
  · exact ⟨cs, hcs, by simp only [List.append_assoc]⟩

end Modes

namespace Emulator

variable (e : Emulator) {b : Block}

/-- A block without `G28` and `M30` selects the positioning by its `G` word, then moves by both its
coordinates if it names an axis. -/
theorem place_execute (hg : b.code? 'g' ≠ some 28) (hm : b.code? 'm' ≠ some 30) :
    (e.execute b).machine.incremental = b.incrementalAfter e.machine.incremental ∧
      (e.execute b).machine.position =
        if b.contains 'x' || b.contains 'y' then
          Machine.destination (b.incrementalAfter e.machine.incremental) e.machine.position
            (Modes.coordinate (e.modes.after b).scale e.signs.x (b.get? 'x'))
            (Modes.coordinate (e.modes.after b).scale e.signs.y (b.get? 'y'))
        else e.machine.position := by
  obtain ⟨cs, hcs, hc⟩ := Modes.exists_commands_eq e.signs e.modes hm
  have hfeed := Modes.all_isStill_wordCommand
    (f := fun f => .setSpeed (e.modes.feedScale * f)) (fun _ => rfl) (b.get? 'f')
  obtain ⟨hp₁, hi₁⟩ := e.machine.run_still hfeed
  obtain ⟨hp₂, hi₂⟩ := Modes.run_gCommands (e.machine.run _) hg
  obtain ⟨hp₃, hi₃⟩ := Machine.run_still (Machine.run (e.machine.run _) _) hcs
  have hrun : (e.execute b).machine = e.machine.run (e.modes.commands e.signs b) := rfl
  rw [hrun, hc, Machine.run_append, Machine.run_append, Machine.run_append, Modes.moves]
  split
  · obtain ⟨hp₄, hi₄⟩ := Machine.execute_move (Machine.run (Machine.run (e.machine.run _) _) cs)
      (Modes.coordinate (e.modes.after b).scale e.signs.x (b.get? 'x'))
      (Modes.coordinate (e.modes.after b).scale e.signs.y (b.get? 'y'))
    rw [Machine.run_cons, Machine.run_nil, hp₄, hi₄, hp₃, hi₃, hp₂, hi₂, hp₁, hi₁]
    exact ⟨rfl, rfl⟩
  · rw [Machine.run_nil, hp₃, hi₃, hp₂, hi₂, hp₁, hi₁]
    exact ⟨rfl, rfl⟩

theorem position_execute (hg : b.code? 'g' ≠ some 28) (hm : b.code? 'm' ≠ some 30)
    (ha : b.contains 'x' ∨ b.contains 'y') :
    (e.execute b).machine.position =
      Machine.destination (b.incrementalAfter e.machine.incremental) e.machine.position
        (Modes.coordinate (e.modes.after b).scale e.signs.x (b.get? 'x'))
        (Modes.coordinate (e.modes.after b).scale e.signs.y (b.get? 'y')) :=
  (e.place_execute hg hm).2.trans (if_pos (Bool.or_eq_true_iff.mpr ha))

/-- Where an axis at `v` is left by a block that names the other axis only. -/
def unnamedAxis (incremental : Bool) (v : Float) : Float :=
  if incremental then v + 0.0 else 0.0

/-- The axis stays: under incremental positioning unless it is at negative zero, under absolute
positioning only if it is at zero. -/
def UnnamedAxisStays (incremental : Bool) (v : Float) : Prop :=
  (incremental ∧ v ≠ -0.0) ∨ (¬ incremental ∧ v = 0.0)

theorem unnamedAxis_eq_iff {incremental : Bool} {v : Float} :
    unnamedAxis incremental v = v ↔ UnnamedAxisStays incremental v := by
  cases incremental with
  | false => simp [unnamedAxis, UnnamedAxisStays, eq_comm]
  | true => simp [unnamedAxis, UnnamedAxisStays, Double.add_zero_eq_iff]

theorem position_execute_of_not_contains_y (hg : b.code? 'g' ≠ some 28)
    (hm : b.code? 'm' ≠ some 30) (hx : b.contains 'x') (hy : ¬ b.contains 'y') :
    (e.execute b).machine.position.2 =
      unnamedAxis (b.incrementalAfter e.machine.incremental) e.machine.position.2 := by
  have hy' : b.get? 'y' = none := Option.not_isSome_iff_eq_none.mp hy
  rw [e.position_execute hg hm (.inl hx), hy', Machine.destination, unnamedAxis]
  split <;> rfl

theorem position_execute_of_not_contains_x (hg : b.code? 'g' ≠ some 28)
    (hm : b.code? 'm' ≠ some 30) (hx : ¬ b.contains 'x') (hy : b.contains 'y') :
    (e.execute b).machine.position.1 =
      unnamedAxis (b.incrementalAfter e.machine.incremental) e.machine.position.1 := by
  have hx' : b.get? 'x' = none := Option.not_isSome_iff_eq_none.mp hx
  rw [e.position_execute hg hm (.inr hy), hx', Machine.destination, unnamedAxis]
  split <;> rfl

/-- A block without `G28` and `M30` that names one axis leaves the other where it is exactly when
zero in the place of the missing coordinate does. -/
theorem unnamed_axis_eq_iff (hg : b.code? 'g' ≠ some 28) (hm : b.code? 'm' ≠ some 30) :
    (b.contains 'x' → ¬ b.contains 'y' →
      ((e.execute b).machine.position.2 = e.machine.position.2 ↔
        UnnamedAxisStays (b.incrementalAfter e.machine.incremental) e.machine.position.2)) ∧
    (b.contains 'y' → ¬ b.contains 'x' →
      ((e.execute b).machine.position.1 = e.machine.position.1 ↔
        UnnamedAxisStays (b.incrementalAfter e.machine.incremental) e.machine.position.1)) := by
  constructor
  · intro hx hy
    rw [e.position_execute_of_not_contains_y hg hm hx hy, unnamedAxis_eq_iff]
  · intro hy hx
    rw [e.position_execute_of_not_contains_x hg hm hx hy, unnamedAxis_eq_iff]

theorem unnamed_axis_eq_iff_incremental :
    let e := (start .default (.fresh true)).write "G0X1Y1\nG91\n".toUTF8.toList
    let b : Block := ⟨.ofList [('x', 2.0)], none⟩
    (e.execute b).machine.position.2 = e.machine.position.2 := by
  intro e b
  exact ((unnamed_axis_eq_iff e (b := b) (by decide) (by decide)).1 (by decide) (by decide)).mpr
    (.inl ⟨by decide +kernel, by decide +kernel⟩)

/-- Under absolute positioning `X2` takes the head to zero on the other axis. -/
theorem unnamed_axis_moves :
    let e := (start .default (.fresh true)).write "G0X1Y1\n".toUTF8.toList
    let b : Block := ⟨.ofList [('x', 2.0)], none⟩
    b.contains 'x' ∧ ¬ b.contains 'y' ∧ b.code? 'g' ≠ some 28 ∧ b.code? 'm' ≠ some 30 ∧
      (e.execute b).machine.position.2 ≠ e.machine.position.2 := by
  decide +kernel

end Emulator
end Engraver
