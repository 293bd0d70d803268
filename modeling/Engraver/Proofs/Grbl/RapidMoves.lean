import Engraver.Proofs.Grbl.ModalWords
import Engraver.Proofs.Grbl.Replies

/-! # Rapid moves with the laser off

The commands of a block end in its move, right behind what the motion mode asks for: the laser off
for a rapid move. The laser is switched on by `M3` and `M4` only, and a program end leaves the block
without a move. A stream of bytes makes no calls but those of its blocks and its realtime bytes, so
all of this holds in every run.
-/

namespace Engraver

namespace Command

def isMove : Command → Bool
  | move .. => true
  | _ => false

def drives : Command → Bool
  | move .. | laserOn | laserOff => true
  | _ => false

theorem isMove_of_not_drives {c : Command} (h : c.drives = false) : c.isMove = false := by
  cases c <;> first | rfl | cases h

end Command

theorem eq_of_append_cons_eq_concat {α : Type} {p : α → Bool} {as before after : List α} {a b : α}
    (has : ∀ c ∈ as, p c = false) (hb : p b) (h : as ++ [a] = before ++ b :: after) :
    before = as ∧ after = [] := by
  rcases List.eq_nil_or_concat after with rfl | ⟨after, d, rfl⟩
  · obtain ⟨rfl, -⟩ := List.append_inj' h rfl
    exact ⟨rfl, rfl⟩
  · rw [List.concat_eq_append, ← List.cons_append, ← List.append_assoc] at h
    obtain ⟨rfl, -⟩ := List.append_inj' h rfl
    have := has b (List.mem_append_right _ List.mem_cons_self)
    rw [hb] at this
    cases this

namespace Modes

variable {signs : AxisSigns} {m : Modes} {b : Block} {c : Command}

def opening (m : Modes) (b : Block) : List Command :=
  wordCommand (fun f => .setSpeed (m.feedScale * f)) (b.get? 'f')
    ++ ((b.code? 'g').map (gCommands b)).getD []

theorem not_drives_of_mem_wordCommand {f : Float → Command} (hf : ∀ v, (f v).drives = false)
    {v : Option Float} (h : c ∈ wordCommand f v) : c.drives = false := by
  cases v with
  | none => cases h
  | some v => rw [List.mem_singleton.mp h, hf]

theorem not_drives_of_mem_gCommands {g : Int} (h : c ∈ gCommands b g) : c.drives = false := by
  unfold gCommands at h
  split at h
  · simp only [dwell, List.mem_append] at h
    rcases h with (h | h) | h
    · simp only [List.mem_cons, List.not_mem_nil, or_false] at h
      rcases h with rfl | rfl <;> rfl
    · exact not_drives_of_mem_wordCommand (fun _ => rfl) h
    · exact not_drives_of_mem_wordCommand (fun _ => rfl) h
  · simp only [List.mem_cons, List.not_mem_nil, or_false] at h
    rcases h with rfl | rfl | rfl <;> rfl
  · rw [List.mem_singleton.mp h]; rfl
  · rw [List.mem_singleton.mp h]; rfl
  · cases h

theorem not_drives_of_mem_opening (h : c ∈ m.opening b) : c.drives = false := by
  rcases List.mem_append.mp h with h | h
  · exact not_drives_of_mem_wordCommand (fun _ => rfl) h
  · cases hg : b.code? 'g' with
    | none => rw [hg] at h; cases h
    | some g => rw [hg] at h; exact not_drives_of_mem_gCommands h

theorem commands_of_end (h : b.code? 'm' = some 30) : m.commands signs b = m.opening b := by
  simp [commands, opening, h]

theorem commands_of_not_end (h : b.code? 'm' ≠ some 30) :
    m.commands signs b =
      m.opening b ++ ((b.code? 'm').map mCommands).getD [] ++ moveCommands signs (m.after b) b := by
  unfold commands
  split
  · next hm => exact absurd hm h
  · next hm => simp [opening, hm]
  · next hm => simp [opening, hm]

theorem isMove_of_mem_mCommands {n : Int} (h : c ∈ mCommands n) : c.isMove = false := by
  unfold mCommands at h
  split at h
  · rw [List.mem_singleton.mp h]; rfl
  · rw [List.mem_singleton.mp h]; rfl
  · rw [List.mem_singleton.mp h]; rfl
  · cases h

theorem isMove_of_mem_approach (h : c ∈ m.approach) : c.isMove = false := by
  unfold approach at h
  split at h
  · simp only [List.mem_cons, List.not_mem_nil, or_false] at h
    rcases h with rfl | rfl <;> rfl
  · rw [List.mem_singleton.mp h]; rfl

/-- Only the last command of a block can be a move, and the approach stands before it. -/
theorem exists_approach {before after : List Command} (hc : c.isMove)
    (h : m.commands signs b = before ++ c :: after) :
    ∃ front, before = front ++ (m.after b).approach := by
  have hmem : c ∈ m.commands signs b := by simp [h]
  by_cases hm : b.code? 'm' = some 30
  · rw [commands_of_end hm] at hmem
    have := Command.isMove_of_not_drives (not_drives_of_mem_opening hmem)
    rw [hc] at this
    cases this
  · rw [commands_of_not_end hm] at h hmem
    let front := m.opening b ++ ((b.code? 'm').map mCommands).getD []
    have hfront : ∀ d ∈ front, d.isMove = false := by
      intro d hd
      rcases List.mem_append.mp hd with hd | hd
      · exact Command.isMove_of_not_drives (not_drives_of_mem_opening hd)
      · cases hn : b.code? 'm' with
        | none => rw [hn] at hd; cases hd
        | some n => rw [hn] at hd; exact isMove_of_mem_mCommands hd
    unfold moveCommands at h hmem
    split at h
    · have hall : ∀ d ∈ front ++ (m.after b).approach, d.isMove = false := by
        intro d hd
        rcases List.mem_append.mp hd with hd | hd
        · exact hfront d hd
        · exact isMove_of_mem_approach hd
      rw [← List.append_assoc] at h
      exact ⟨front, (eq_of_append_cons_eq_concat hall hc h).1⟩
    · next hxy =>
      rw [if_neg hxy, List.append_nil] at hmem
      have := hfront c hmem
      rw [hc] at this
      cases this

/-- Only `M3` and `M4` switch the laser on. -/
theorem code?_of_laserOn_mem (h : .laserOn ∈ m.commands signs b) :
    b.code? 'm' = some 3 ∨ b.code? 'm' = some 4 := by
  by_cases hm : b.code? 'm' = some 30
  · rw [commands_of_end hm] at h
    cases not_drives_of_mem_opening h
  · rw [commands_of_not_end hm, List.mem_append, List.mem_append] at h
    rcases h with (h | h) | h
    · cases not_drives_of_mem_opening h
    · cases hn : b.code? 'm' with
      | none => rw [hn] at h; cases h
      | some n =>
        simp only [hn, Option.map_some, Option.getD_some] at h
        unfold mCommands at h
        split at h
        · exact .inl rfl
        · exact .inr rfl
        · cases List.mem_singleton.mp h
        · cases h
    · unfold moveCommands approach at h
      split at h
      · split at h <;> simp at h
      · cases h

end Modes

namespace Machine

theorem laserOn_obeyAll_approach (m : Machine) (front : List Call) :
    (m.obeyAll (front ++ [.command .laserOff, .command .modeDefault])).laserOn = false := by
  rw [obeyAll_append]
  simp [obeyAll, obey, execute, perform]

end Machine

namespace Emulator

open LineText

/-- The byte `b` behind the bytes `before` makes the call, behind the calls `earlier`. -/
def Makes (e : Emulator) (before : List UInt8) (b : UInt8) (earlier : List Call) (call : Call) :
    Prop :=
  ∃ first rest, (e.write before).calls [b] = first ++ call :: rest ∧
    earlier = e.calls before ++ first

/-- The code of the `M` word of a line. -/
def programCode? (line : List UInt8) : Option Int :=
  (lastNumber (lineWords line) 'm').bind Block.codeOf?

/-- What holds of a call that the byte `b` behind the bytes `before` makes. -/
structure Interlocked (e : Emulator) (before : List UInt8) (b : UInt8) (earlier : List Call)
    (c : Command) : Prop where
  lineEnd : ByteKind.isLineEnd b
  rapid : c.isMove → (e.write (before ++ [b])).modes.motion = .rapid →
    (∃ front, earlier = front ++ [.command .laserOff, .command .modeDefault]) ∧
      (e.machine.obeyAll earlier).laserOn = false
  other : c.isMove → (e.write (before ++ [b])).modes.motion ≠ .rapid →
    ∃ front, earlier = front ++ [.command .modeCompact]
  lit : c = .laserOn →
    programCode? (unfinished before) = some 3 ∨ programCode? (unfinished before) = some 4
  ended : programCode? (unfinished before) = some 30 → c.drives = false

variable {e : Emulator}

theorem exists_makes {bytes : List UInt8} {earlier later : List Call} {call : Call}
    (h : e.calls bytes = earlier ++ call :: later) :
    ∃ before b after, bytes = before ++ b :: after ∧ e.Makes before b earlier call := by
  induction bytes using List.reverseRecOn generalizing later with
  | nil => simp [calls, LineReader.feedAll, Modes.calls] at h
  | append_singleton bytes b ih =>
    rw [calls_append] at h
    rcases List.append_eq_append_iff.mp h with ⟨first, hearlier, hbyte⟩ | ⟨rest, hbytes, hrest⟩
    · exact ⟨bytes, b, [], rfl, first, later, hbyte, hearlier⟩
    · cases rest with
      | nil => exact ⟨bytes, b, [], rfl, [], later, hrest.symm, by simpa using hbytes.symm⟩
      | cons d rest =>
        obtain ⟨rfl, -⟩ := List.cons.inj hrest
        obtain ⟨before, d, after, rfl, hmakes⟩ := ih hbytes
        exact ⟨before, d, after ++ [b], by simp, hmakes⟩

theorem code?_lineBlock (line : List UInt8) :
    (lineBlock line).code? 'm' = programCode? line := by
  rw [Block.code?_eq, get?_lineBlock]
  rfl

end Emulator

namespace LineReader

open LineText

theorem feed_feedAll_fresh (before : List UInt8) {b : UInt8} (h : ByteKind.isLineEnd b) :
    ((fresh.feedAll before).1.feed b).2 = some (.line (lineBlock (unfinished before))) := by
  obtain ⟨-, hreads⟩ := feedAll_lineBytes (lineByte_of_mem_unfinished before)
    (between (latest (finishedComments before) none)) rfl
  rw [(feedAll_fresh before).1, feed_lineEnd h hreads, lineBlock_eq]

theorem feed_of_not_lineEnd (s : LineReader) {b : UInt8} (h : ByteKind.isLineEnd b = false) :
    (s.feed b).2 = (RealtimeByte.ofByte? b).map .realtime := by
  obtain ⟨_, hfeed⟩ := s.exists_feedLine_eq b
  unfold feed
  cases RealtimeByte.ofByte? b with
  | some r => rfl
  | none => simpa [h] using hfeed

end LineReader

namespace Emulator

open LineText

variable {c : EmulatorConfig} {m : Machine} {before : List UInt8} {b : UInt8}

theorem command_notMem_calls (e : Emulator) (h : ByteKind.isLineEnd b = false) (d : Command) :
    .command d ∉ e.calls [b] := by
  simp only [calls, LineReader.feedAll, e.reader.feed_of_not_lineEnd h]
  cases RealtimeByte.ofByte? b with
  | none => simp [Modes.calls]
  | some r => cases r <;> simp [Modes.calls, Modes.callsFor, RealtimeByte.signal?]

theorem reader_feed_lineEnd (h : ByteKind.isLineEnd b) :
    (((start c m).write before).reader.feed b).2 =
      some (.line (lineBlock (unfinished before))) := by
  rw [write_reader]
  exact LineReader.feed_feedAll_fresh before h

theorem calls_lineEnd (h : ByteKind.isLineEnd b) :
    ((start c m).write before).calls [b] =
      (((start c m).write before).modes.commands c.signs (lineBlock (unfinished before))).map
        .command := by
  simp only [calls, LineReader.feedAll, reader_feed_lineEnd h, write_signs]
  simp [Modes.calls, Modes.callsFor, start]

theorem modes_write_lineEnd (h : ByteKind.isLineEnd b) :
    ((start c m).write (before ++ [b])).modes =
      ((start c m).write before).modes.after (lineBlock (unfinished before)) := by
  rw [write_append, write_modes _ [b]]
  simp only [LineReader.feedAll, reader_feed_lineEnd h]
  rfl

theorem interlocked_of_makes {earlier : List Call} {d : Command}
    (h : (start c m).Makes before b earlier (.command d)) :
    (start c m).Interlocked before b earlier d := by
  obtain ⟨first, rest, hcalls, rfl⟩ := h
  have hend : ByteKind.isLineEnd b := by
    by_contra hb
    refine ((start c m).write before).command_notMem_calls (Bool.eq_false_iff.mpr hb) d ?_
    rw [hcalls]
    exact List.mem_append_right _ List.mem_cons_self
  rw [calls_lineEnd hend] at hcalls
  obtain ⟨earlier, later, hcommands, rfl, hlater⟩ := List.map_eq_append_iff.mp hcalls
  obtain ⟨d', later, rfl, hd, -⟩ := List.map_eq_cons_iff.mp hlater
  obtain rfl := Call.command.inj hd
  have hmem : d' ∈ ((start c m).write before).modes.commands c.signs
      (lineBlock (unfinished before)) := by
    rw [hcommands]
    exact List.mem_append_right _ List.mem_cons_self
  have hcode := code?_lineBlock (unfinished before)
  refine ⟨hend, ?_, ?_, ?_, ?_⟩
  · intro hmove hrapid
    obtain ⟨front, rfl⟩ := Modes.exists_approach hmove hcommands
    rw [modes_write_lineEnd hend] at hrapid
    have happroach : (start c m).calls before ++
          (front ++ (((start c m).write before).modes.after
            (lineBlock (unfinished before))).approach).map .command =
        ((start c m).calls before ++ front.map .command) ++
          [.command .laserOff, .command .modeDefault] := by
      rw [Modes.approach, hrapid, List.map_append, List.append_assoc]
      rfl
    rw [happroach]
    exact ⟨⟨_, rfl⟩, Machine.laserOn_obeyAll_approach _ _⟩
  · intro hmove hother
    obtain ⟨front, rfl⟩ := Modes.exists_approach hmove hcommands
    rw [modes_write_lineEnd hend] at hother
    refine ⟨(start c m).calls before ++ front.map .command, ?_⟩
    rw [Modes.approach, List.map_append, List.append_assoc]
    split
    · next hrapid => exact absurd hrapid hother
    · rfl
  · rintro rfl
    rw [← hcode]
    exact Modes.code?_of_laserOn_mem hmem
  · intro hprogram
    rw [← hcode] at hprogram
    rw [Modes.commands_of_end hprogram] at hmem
    exact Modes.not_drives_of_mem_opening hmem

/-- However a stream is cut, the machine of a new emulator is given its calls in order. A command
among them is made by a line end. If it is a move and the motion is rapid, the calls right before it
are `laserOff` and `modeDefault` and the laser is off; under any other motion the call right before
it is `modeCompact`. The laser is switched on only by a line whose `M` word is 3 or 4, and a line
whose `M` word is 30 neither moves nor switches the laser. -/
theorem rapid_moves_unlit (c : EmulatorConfig) (m : Machine) (chunks : List (List UInt8)) :
    let e := start c m
    let bytes := chunks.flatten
    (chunks.foldl write e).machine = m.obeyAll (e.calls bytes) ∧
    (∀ earlier d later, e.calls bytes = earlier ++ .command d :: later →
      ∃ before b after, bytes = before ++ b :: after ∧ e.Makes before b earlier (.command d)) ∧
    ∀ before b earlier d, e.Makes before b earlier (.command d) →
      e.Interlocked before b earlier d := by
  intro e bytes
  refine ⟨?_, fun earlier d later h => exists_makes h, fun before b earlier d h =>
    interlocked_of_makes h⟩
  have hchunks : chunks.foldl write e = e.write bytes := by
    change chunks.foldl (fun e chunk => chunk.foldl writeByte e) e = bytes.foldl writeByte e
    rw [List.foldl_flatten]
  rw [hchunks]
  exact e.write_machine bytes

theorem rapid_moves_unlit_behind_laserOn :
    let e := start .default (.fresh true)
    let line := "G0 M3 X1?2".toUTF8.toList
    ∃ earlier d, e.Makes line 0x0a earlier (.command d) ∧ d.isMove ∧
      (e.machine.obeyAll earlier).laserOn = false := by
  intro e line
  have hnames : ((e.write line).calls [0x0a]).map (·.command?.map Command.name) =
      ["laser_on", "laser_off", "mode_default"].map some ++ [some "move"] := by decide +kernel
  obtain ⟨first, last, hcalls, -, hlast⟩ := List.map_eq_append_iff.mp hnames
  obtain ⟨call, rfl, hcall⟩ := List.map_eq_singleton_iff.mp hlast
  obtain ⟨d, hd, hname⟩ := Option.map_eq_some_iff.mp hcall
  obtain rfl : call = .command d := by
    cases call <;> cases hd
    rfl
  have hmove : d.isMove := by
    cases d <;> first | rfl | simp [Command.name] at hname
  have hmakes : e.Makes line 0x0a (e.calls line ++ first) (.command d) :=
    ⟨first, [], hcalls, rfl⟩
  have hlocked := (rapid_moves_unlit .default (.fresh true) []).2.2 _ _ _ _ hmakes
  exact ⟨_, d, hmakes, hmove, (hlocked.rapid hmove (by decide +kernel)).2⟩

end Emulator
end Engraver
