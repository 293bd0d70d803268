import Engraver.Proofs.Grbl.ModalWords
import Engraver.Proofs.Grbl.Remarks
import Engraver.Proofs.KeyMap

/-! # The order of the words on a line

A line keeps one number for each letter, and a finished line is executed in a fixed order. So words
with different letters may stand in any order, in either case, with blanks and comments anywhere
between their characters.
-/

namespace Engraver

namespace LineText

/-- A letter in lower case with digits, signs and points behind it, which need not be a number. -/
structure IsWord (w : Char × List Char) : Prop where
  letter : w.1.isLower
  text : ∀ c ∈ w.2, Numeral.isNumeralChar c

def plainText (ws : List (Char × List Char)) : List Char :=
  ws.flatMap fun w => w.1 :: w.2

/-- The bytes say a text with its letters in either case. Anywhere between its characters there may
be comments that a parenthesis closes, and bytes without a meaning such as blanks. -/
inductive Spells : List UInt8 → List Char → Prop
  | nil : Spells [] []
  | char {b : UInt8} {bs : List UInt8} {c : Char} {cs : List Char}
      (char : (byteChar b).toLower = c) (rest : Spells bs cs) : Spells (b :: bs) (c :: cs)
  | ignored {b : UInt8} {bs : List UInt8} {cs : List Char} (line : LineByte b)
      (ignored : ByteKind.ofByte b = .ignored) (rest : Spells bs cs) : Spells (b :: bs) cs
  | comment {b : UInt8} {text bs : List UInt8} {cs : List Char} (opens : LineParts.opensComment b)
      (text_line : ∀ c ∈ text, LineByte c ∧ c ≠ 0x29) (rest : Spells bs cs) :
      Spells (b :: (text ++ 0x29 :: bs)) cs

def isWordChar (c : Char) : Bool :=
  c.isLower || Numeral.isNumeralChar c

theorem isWordChar_of_mem_plainText {ws : List (Char × List Char)} (h : ∀ w ∈ ws, IsWord w) :
    ∀ c ∈ plainText ws, isWordChar c := by
  intro c hc
  obtain ⟨w, hw, hc⟩ := List.mem_flatMap.mp hc
  rcases List.mem_cons.mp hc with rfl | hc
  · simp [isWordChar, (h w hw).letter]
  · simp [isWordChar, (h w hw).text c hc]

theorem toLower_of_not_isUpper {c : Char} (h : c.isUpper = false) : c.toLower = c :=
  dif_neg fun hu => Bool.false_ne_true (h.symm.trans (decide_eq_true hu))

theorem isUpper_iff {c : Char} : c.isUpper ↔ 65 ≤ c.val.toNat ∧ c.val.toNat ≤ 90 := by
  simp only [Char.isUpper, decide_eq_true_eq, ge_iff_le, UInt32.le_iff_toNat_le]
  rfl

theorem isLower_iff {c : Char} : c.isLower ↔ 97 ≤ c.val.toNat ∧ c.val.toNat ≤ 122 := by
  simp only [Char.isLower, Bool.and_eq_true, decide_eq_true_eq, ge_iff_le,
    UInt32.le_iff_toNat_le]
  rfl

theorem toLower_of_isLower {c : Char} (h : c.isLower) : c.toLower = c := by
  refine toLower_of_not_isUpper (Bool.eq_false_iff.mpr fun hu => ?_)
  rw [isLower_iff] at h
  rw [isUpper_iff] at hu
  omega

theorem isLower_toLower_of_isUpper {c : Char} (h : c.isUpper) : c.toLower.isLower := by
  have hlower : c.toLower.val = c.val + 32 := by
    unfold Char.toLower
    rw [dif_pos (of_decide_eq_true h)]
    rfl
  have hsum : (c.val + 32).toNat = (c.val.toNat + 32) % 4294967296 := UInt32.toNat_add ..
  rw [isUpper_iff] at h
  rw [isLower_iff, hlower]
  omega

theorem isAlpha_toLower (c : Char) : c.toLower.isAlpha = c.isAlpha := by
  cases h : c.isUpper with
  | true => simp [Char.isAlpha, h, isLower_toLower_of_isUpper h]
  | false => rw [toLower_of_not_isUpper h]

theorem toLower_of_not_isAlpha {c : Char} (h : c.isAlpha = false) : c.toLower = c :=
  toLower_of_not_isUpper (Bool.or_eq_false_iff.mp h).1

theorem words_map_toLower (cs : List Char) : words (cs.map Char.toLower) = words cs := by
  induction cs with
  | nil => rfl
  | cons c cs ih =>
    have htext : (cs.map Char.toLower).takeWhile (!·.isAlpha) = cs.takeWhile (!·.isAlpha) := by
      simp only [List.takeWhile_map, Function.comp_def, isAlpha_toLower]
      refine List.map_congr_left (fun d hd => ?_) |>.trans (List.map_id _)
      exact toLower_of_not_isAlpha (by simpa using List.mem_takeWhile_imp hd)
    rw [List.map_cons, words, words, isAlpha_toLower, toLower_toLower, htext, ih]

theorem words_plainText {ws : List (Char × List Char)} (h : ∀ w ∈ ws, IsWord w) :
    words (plainText ws) = ws := by
  induction ws with
  | nil => rfl
  | cons w ws ih =>
    obtain ⟨⟨letter, text⟩, hws⟩ := List.forall_mem_cons.mp h
    have halpha : w.1.isAlpha := by simp [Char.isAlpha, letter]
    have htext : ∀ c ∈ w.2, (!c.isAlpha) = true := fun c hc => by
      simp [isAlpha_of_isNumeralChar (text c hc)]
    have hrest : (plainText ws).takeWhile (!·.isAlpha) = [] := by
      cases ws with
      | nil => rfl
      | cons v vs =>
        have hv := (h v (by simp)).letter
        simp [plainText, Char.isAlpha, hv]
    have hskip : ∀ cs : List Char, (∀ c ∈ cs, Numeral.isNumeralChar c) →
        words (cs ++ plainText ws) = words (plainText ws) := by
      intro cs hcs
      induction cs with
      | nil => rfl
      | cons c cs ihc =>
        obtain ⟨hc, hcs⟩ := List.forall_mem_cons.mp hcs
        rw [List.cons_append, words_cons_of_isNumeralChar hc, ihc hcs]
    change words (w.1 :: (w.2 ++ plainText ws)) = w :: ws
    rw [words_cons_of_isAlpha halpha, List.takeWhile_append_of_pos htext, hrest, List.append_nil,
      hskip _ text, ih hws, toLower_of_isLower letter]

theorem lineByte_of_isWordChar (b : UInt8) (h : isWordChar (byteChar b).toLower) :
    LineByte b ∧ LineParts.opensComment b = false ∧ codeText [b] = [byteChar b] := by
  have hall : ∀ n : Fin 256, let b : UInt8 := .ofFin n
      isWordChar (byteChar b).toLower → LineByte b ∧ LineParts.opensComment b = false ∧
        codeText [b] = [byteChar b] := by
    decide +kernel
  exact hall b.toFin h

theorem ignored_not_code {b : UInt8} (hl : ByteKind.isLineEnd b = false)
    (hi : ByteKind.ofByte b = .ignored) : LineParts.opensComment b = false ∧ codeText [b] = [] := by
  have ho : LineParts.opensComment b = false := by
    by_contra hc
    rw [ofByte_of_opensComment (by simpa using hc)] at hi
    cases hi
  rw [ofByte_of_code hl ho] at hi
  refine ⟨ho, ?_⟩
  cases hn : Numeral.isNumeralChar (byteChar b) <;> cases ha : (byteChar b).isAlpha <;>
    simp_all [codeText]

theorem Spells.codeText {bs : List UInt8} {cs : List Char} (h : Spells bs cs)
    (hcs : ∀ c ∈ cs, isWordChar c) :
    (∀ b ∈ bs, LineByte b) ∧
      (LineText.codeText (LineParts.ofLine bs).code).map Char.toLower = cs := by
  induction h with
  | nil =>
    rw [LineParts.ofLine]
    exact ⟨by simp, rfl⟩
  | @char b bs c cs hchar _ ih =>
    subst hchar
    obtain ⟨hc, hcs⟩ := List.forall_mem_cons.mp hcs
    obtain ⟨hline, hcode, htext⟩ := lineByte_of_isWordChar b hc
    obtain ⟨hlines, ih⟩ := ih hcs
    refine ⟨List.forall_mem_cons.mpr ⟨hline, hlines⟩, ?_⟩
    rw [LineParts.ofLine_cons_of_code hcode, codeText_cons, htext, List.map_append, ih]
    rfl
  | @ignored b bs cs hline hignored _ ih =>
    obtain ⟨hcode, htext⟩ := ignored_not_code hline.2 hignored
    obtain ⟨hlines, ih⟩ := ih hcs
    refine ⟨List.forall_mem_cons.mpr ⟨hline, hlines⟩, ?_⟩
    rw [LineParts.ofLine_cons_of_code hcode, codeText_cons, htext, List.nil_append, ih]
  | @comment b text bs cs hopens htext _ ih =>
    obtain ⟨hlines, ih⟩ := ih hcs
    have hopener : LineByte b := by
      rw [LineParts.opensComment, Bool.or_eq_true, decide_eq_true_iff, decide_eq_true_iff] at hopens
      rcases hopens with rfl | rfl <;> decide
    have hrest : (text ++ 0x29 :: bs).dropWhile (· ≠ 0x29) = 0x29 :: bs := by
      rw [List.dropWhile_append_of_pos fun c hc => decide_eq_true (htext c hc).2]
      rfl
    constructor
    · have hclosed : ∀ c ∈ text ++ 0x29 :: bs, LineByte c :=
        List.forall_mem_append.mpr
          ⟨fun c hc => (htext c hc).1, List.forall_mem_cons.mpr ⟨by decide, hlines⟩⟩
      exact List.forall_mem_cons.mpr ⟨hopener, hclosed⟩
    · rw [LineParts.ofLine_closed hopens hrest]
      exact ih

/-- The words of a line are those that its bytes say. -/
theorem Spells.words {bs : List UInt8} {ws : List (Char × List Char)}
    (h : Spells bs (plainText ws)) (hws : ∀ w ∈ ws, IsWord w) :
    (∀ b ∈ bs, LineByte b) ∧
      (lineBlock bs).fields = .ofList (keptWords ws) := by
  obtain ⟨hlines, htext⟩ := h.codeText (isWordChar_of_mem_plainText hws)
  refine ⟨hlines, ?_⟩
  rw [lineBlock, ← words_map_toLower, htext, words_plainText hws]

theorem sublist_keptWords (ws : List (Char × List Char)) :
    ((keptWords ws).map Prod.fst).Sublist (ws.map Prod.fst) := by
  unfold keptWords
  induction ws with
  | nil => exact .slnil
  | cons w ws ih => cases hd : Numeral.isDecimal w.2 <;> simp [hd, ih]

end LineText

namespace Emulator

open LineText

variable {e : Emulator}

/-- A finished line that says words hands over the block of those that are numbers. -/
theorem exists_feedAll_eq (he : e.AtLineStart) {ws : List (Char × List Char)}
    (hws : ∀ w ∈ ws, IsWord w) {bs : List UInt8} (h : Spells bs (plainText ws)) {t : UInt8}
    (ht : ByteKind.isLineEnd t) :
    ∃ before after, e.reader.feedAll (bs ++ [t]) =
      (.between before, [.line ⟨.ofList (keptWords ws), after⟩]) := by
  obtain ⟨comment, hreader⟩ := he
  obtain ⟨hlines, hfields⟩ := h.words hws
  have hfeed := LineReader.feedAll_finished hlines ht comment []
  rw [← hfields, hreader]
  exact ⟨_, _, hfeed⟩

/-- A line of words with different letters executes a block that has the words that are numbers,
whatever the order in which they stand. So two such lines of the same words make the same calls of
the machine and leave the same behind, but for their comments. -/
theorem runsAs_perm_words (he : e.AtLineStart) {vs ws : List (Char × List Char)}
    (hwords : ∀ w ∈ vs, IsWord w) (hletters : (vs.map Prod.fst).Nodup) (hperm : vs.Perm ws)
    {as bs : List UInt8} (has : Spells as (plainText vs)) (hbs : Spells bs (plainText ws))
    {s t : UInt8} (hs : ByteKind.isLineEnd s) (ht : ByteKind.isLineEnd t) :
    e.RunsAs (as ++ [s]) (bs ++ [t]) ∧
      e.calls (as ++ [s]) =
        (e.modes.commands e.signs ⟨.ofList (keptWords vs), none⟩).map .command ∧
      (e.write (as ++ [s])).reply = some acknowledgement := by
  have hwords' : ∀ w ∈ ws, IsWord w := fun w hw => hwords w (hperm.mem_iff.mpr hw)
  have hfields : (KeyMap.ofList (keptWords vs) : KeyMap Char Float) = .ofList (keptWords ws) :=
    KeyMap.ofList_perm (hperm.filterMap _) (hletters.sublist (sublist_keptWords vs))
  obtain ⟨before, after, hfeed⟩ := exists_feedAll_eq he hwords has hs
  obtain ⟨before', after', hfeed'⟩ := exists_feedAll_eq he hwords' hbs ht
  refine ⟨runsAs_of_feedAll ?_, ?_, ?_⟩
  · rw [hfeed, hfeed', hfields]
    exact ⟨rfl, rfl⟩
  · rw [calls, hfeed, ← Modes.calls_withoutComment]
    exact List.append_nil _
  · rw [write_eq, hfeed]
    rfl

theorem runsAs_perm_words_malformed :
    let before := "G20 F5 (slow)\n".toUTF8.toList
    let e := (start .default (.fresh true)).write before
    let words := [('g', ['1']), ('x', ['1', '2']), ('y', ['-', '-', '3'])]
    let line := "G1 X12 Y--3".toUTF8.toList
    let permuted := "y--3x 1(e)2\tG1".toUTF8.toList
    e.RunsAs (line ++ [0x0a]) (permuted ++ [0x0d]) ∧
      e.calls (line ++ [0x0a]) =
        (e.modes.commands e.signs ⟨.ofList (keptWords words), none⟩).map .command ∧
      (e.write (line ++ [0x0a])).reply = some acknowledgement := by
  intro before e words line permuted
  have hbefore : Carries before [('g', 20.0), ('f', 5.0)] :=
    ⟨before.dropLast, 0x0a, by decide +kernel, by decide +kernel, rfl, by decide +kernel⟩
  have hstart : e.AtLineStart := (exists_block_of_carries ⟨none, rfl⟩ hbefore).1
  have hwords : ∀ w ∈ words, IsWord w :=
    List.forall_mem_cons.mpr ⟨⟨rfl, List.all_eq_true.mp rfl⟩, List.forall_mem_cons.mpr
      ⟨⟨rfl, List.all_eq_true.mp rfl⟩, List.forall_mem_singleton.mpr
        ⟨rfl, List.all_eq_true.mp rfl⟩⟩⟩
  have hperm : words.Perm [('y', ['-', '-', '3']), ('x', ['1', '2']), ('g', ['1'])] := by
    decide
  have hblank : LineByte 0x20 ∧ ByteKind.ofByte 0x20 = .ignored := by decide
  have htab : LineByte 0x09 ∧ ByteKind.ofByte 0x09 = .ignored := by decide
  have hcomment : ∀ c ∈ [(0x65 : UInt8)], LineByte c ∧ c ≠ 0x29 :=
    List.forall_mem_singleton.mpr ⟨by decide, by decide⟩
  have hline : Spells line (plainText words) := by
    have hbytes : line = [0x47, 0x31, 0x20, 0x58, 0x31, 0x32, 0x20, 0x59, 0x2d, 0x2d, 0x33] := by
      decide +kernel
    rw [hbytes]
    exact .char (by decide) (.char (by decide) (.ignored hblank.1 hblank.2 (.char (by decide)
      (.char (by decide) (.char (by decide) (.ignored hblank.1 hblank.2 (.char (by decide)
        (.char (by decide) (.char (by decide) (.char (by decide) .nil))))))))))
  have hpermuted : Spells permuted
      (plainText [('y', ['-', '-', '3']), ('x', ['1', '2']), ('g', ['1'])]) := by
    have hbytes : permuted = 0x79 :: 0x2d :: 0x2d :: 0x33 :: 0x78 :: 0x20 :: 0x31 :: 0x28 ::
        ([0x65] ++ 0x29 :: [0x32, 0x09, 0x47, 0x31]) := by
      decide +kernel
    rw [hbytes]
    exact .char (by decide) (.char (by decide) (.char (by decide) (.char (by decide)
      (.char (by decide) (.ignored hblank.1 hblank.2 (.char (by decide) (.comment rfl hcomment
        (.char (by decide) (.ignored htab.1 htab.2 (.char (by decide)
          (.char (by decide) .nil)))))))))))
  exact runsAs_perm_words hstart hwords (by decide) hperm hline hpermuted (by decide) (by decide)

end Emulator
end Engraver
