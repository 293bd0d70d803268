import Engraver.Proofs.Grbl.LineText

/-! # Words byte by byte

What the reader has of the unfinished line, its fields, the letter and the numeral behind it, is
what the words of the code so far say. Each byte of code keeps this.
-/

namespace Engraver

section Bytes

variable {b : UInt8}

theorem toNat_byteChar (b : UInt8) : (byteChar b).toNat = b.toNat := by
  have hv : b.toNat.isValidChar := .inl (by have := b.toNat_lt; omega)
  rw [byteChar, Char.ofNat, dif_pos hv]
  rfl

theorem byteChar_injective {a b : UInt8} (h : byteChar a = byteChar b) : a = b :=
  UInt8.toNat_inj.mp (by rw [← toNat_byteChar a, ← toNat_byteChar b, h])

theorem ofByte_of_isLineEnd (h : ByteKind.isLineEnd b) : ByteKind.ofByte b = .lineEnd :=
  if_pos h

theorem ofByte_of_opensComment (h : LineParts.opensComment b) :
    ByteKind.ofByte b = .openComment := by
  rw [LineParts.opensComment, Bool.or_eq_true, decide_eq_true_iff, decide_eq_true_iff] at h
  rcases h with rfl | rfl <;> rfl

theorem ofByte_of_code (hl : ByteKind.isLineEnd b = false)
    (ho : LineParts.opensComment b = false) :
    ByteKind.ofByte b =
      if Numeral.isNumeralChar (byteChar b) then .numeral
      else if (byteChar b).isAlpha then .letter else .ignored := by
  have hparen : byteChar b ≠ '(' := fun h => by
    obtain rfl : b = 0x28 := byteChar_injective h
    cases ho
  have hsemicolon : byteChar b ≠ ';' := fun h => by
    obtain rfl : b = 0x3b := byteChar_injective h
    cases ho
  unfold ByteKind.ofByte Numeral.isNumeralChar
  simp [hl, hparen, hsemicolon]

theorem isAlpha_of_isNumeralChar {c : Char} (h : Numeral.isNumeralChar c) :
    c.isAlpha = false := by
  have hc := Numeral.val_le_of_isNumeralChar h
  have hupper : c.isUpper = false :=
    decide_eq_false fun hu => absurd (UInt32.le_trans hu.1 hc) (by decide)
  have hlower : c.isLower = false :=
    Bool.and_eq_false_imp.mpr fun hl =>
      absurd (UInt32.le_trans (of_decide_eq_true hl) hc) (by decide)
  exact Bool.or_eq_false_iff.mpr ⟨hupper, hlower⟩

end Bytes

namespace LineText

def insertWords (m : KeyMap Char Float) (ws : List (Char × List Char)) : KeyMap Char Float :=
  ws.foldl (fun m w => match Numeral.float? w.2 with
    | some v => m.insert w.1.toLower v
    | none => m) m

variable {c : Char}

theorem words_cons_of_isAlpha (h : c.isAlpha) (cs : List Char) :
    words (c :: cs) = (c.toLower, cs.takeWhile (!·.isAlpha)) :: words cs :=
  if_pos h

theorem words_cons_of_isNumeralChar (h : Numeral.isNumeralChar c) (cs : List Char) :
    words (c :: cs) = words cs :=
  if_neg (by simp [isAlpha_of_isNumeralChar h])

theorem toLower_toLower (c : Char) : c.toLower.toLower = c.toLower := by
  unfold Char.toLower
  split
  · next h =>
    refine dif_neg fun hu => ?_
    have hlo : 65 ≤ c.val.toNat := UInt32.le_iff_toNat_le.mp h.1
    have hhi : c.val.toNat ≤ 90 := UInt32.le_iff_toNat_le.mp h.2
    have hup : (c.val + 32).toNat ≤ 90 := UInt32.le_iff_toNat_le.mp hu.2
    have hsum : (c.val + 32).toNat = (c.val.toNat + 32) % 4294967296 := UInt32.toNat_add ..
    omega
  · rfl

theorem toLower_of_mem_words {cs : List Char} {w : Char × List Char} (hw : w ∈ words cs) :
    w.1.toLower = w.1 := by
  induction cs with
  | nil => cases hw
  | cons c cs ih =>
    rw [words] at hw
    split at hw
    · rcases List.mem_cons.mp hw with rfl | hw
      · exact toLower_toLower c
      · exact ih hw
    · exact ih hw

theorem isNumeralChar_of_mem_words {cs : List Char} {w : Char × List Char}
    (h : ∀ c ∈ cs, c.isAlpha || Numeral.isNumeralChar c) (hw : w ∈ words cs) :
    ∀ c ∈ w.2, Numeral.isNumeralChar c := by
  induction cs with
  | nil => cases hw
  | cons c cs ih =>
    have hcs : ∀ c ∈ cs, c.isAlpha || Numeral.isNumeralChar c := fun c hc =>
      h c (List.mem_cons_of_mem _ hc)
    rw [words] at hw
    split at hw
    · rcases List.mem_cons.mp hw with rfl | hw
      · intro d hd
        have hcode := hcs d ((List.takeWhile_sublist _).mem hd)
        have halpha : d.isAlpha = false := by simpa using List.mem_takeWhile_imp hd
        rwa [halpha] at hcode
      · exact ih hcs hw
    · exact ih hcs hw

theorem insertWords_cons (m : KeyMap Char Float) (w : Char × List Char)
    (ws : List (Char × List Char)) :
    insertWords m (w :: ws) = insertWords (match Numeral.float? w.2 with
      | some v => m.insert w.1.toLower v
      | none => m) ws :=
  rfl

theorem insertWords_append (m : KeyMap Char Float) (vs ws : List (Char × List Char)) :
    insertWords m (vs ++ ws) = insertWords (insertWords m vs) ws :=
  List.foldl_append

/-- Words of code that read as numbers are those whose text is a decimal. -/
theorem insertWords_eq {ws : List (Char × List Char)} (hl : ∀ w ∈ ws, w.1.toLower = w.1)
    (hn : ∀ w ∈ ws, ∀ c ∈ w.2, Numeral.isNumeralChar c) (m : KeyMap Char Float) :
    insertWords m ws = (keptWords ws).foldl (fun m e => m.insert e.1 e.2) m := by
  induction ws generalizing m with
  | nil => rfl
  | cons w ws ih =>
    have ih := ih (fun v hv => hl v (List.mem_cons_of_mem _ hv))
      (fun v hv => hn v (List.mem_cons_of_mem _ hv))
    rw [insertWords_cons, ih, Numeral.float?_eq_decimal (hn w List.mem_cons_self),
      hl w List.mem_cons_self]
    unfold keptWords
    rw [List.filterMap_cons]
    cases Numeral.isDecimal w.2 <;> rfl

theorem insertWords_words (code : List UInt8) :
    insertWords ∅ (words (codeText code)) = .ofList (keptWords (words (codeText code))) :=
  insertWords_eq (fun _ => toLower_of_mem_words)
    (fun _ => isNumeralChar_of_mem_words fun _ hc => (List.mem_filter.mp hc).2) ∅

end LineText

namespace LineReader

open LineText

def pendingWords (s : LineReader) (cs : List Char) : List (Char × List Char) :=
  match s.letter with
  | some l => (l, s.numeral.toList ++ cs.takeWhile (!·.isAlpha)) :: words cs
  | none => words cs

/-- The fields of the unfinished line when characters of code follow and end it. -/
def fieldsAfter (s : LineReader) (cs : List Char) : KeyMap Char Float :=
  insertWords s.block.fields (s.pendingWords cs)

theorem fields_endWord (s : LineReader) : s.endWord.block.fields = s.fieldsAfter [] := by
  obtain ⟨_, letter, numeral, block, _⟩ := s
  cases letter with
  | none => rfl
  | some l =>
    unfold endWord fieldsAfter pendingWords
    rw [insertWords_cons, List.takeWhile_nil, List.append_nil]
    cases Numeral.float? numeral.toList <;> rfl

theorem fieldsAfter_push (s : LineReader) {c : Char} (h : Numeral.isNumeralChar c)
    (cs : List Char) :
    fieldsAfter { s with numeral := s.numeral.push c } cs = s.fieldsAfter (c :: cs) := by
  have hc : (c :: cs).takeWhile (!·.isAlpha) = c :: cs.takeWhile (!·.isAlpha) :=
    List.takeWhile_cons_of_pos (by simp [isAlpha_of_isNumeralChar h])
  unfold fieldsAfter pendingWords
  rw [words_cons_of_isNumeralChar h, hc]
  dsimp only
  rw [String.toList_push, List.append_assoc, List.singleton_append]

theorem fieldsAfter_endWord (s : LineReader) {c : Char} (h : c.isAlpha) (cs : List Char) :
    fieldsAfter { s.endWord with letter := some c.toLower } cs = s.fieldsAfter (c :: cs) := by
  have hc : (c :: cs).takeWhile (!·.isAlpha) = [] :=
    List.takeWhile_cons_of_neg (by simp [h])
  change insertWords s.endWord.block.fields ((c.toLower, cs.takeWhile _) :: words cs) = _
  rw [fields_endWord]
  unfold fieldsAfter pendingWords
  rw [words_cons_of_isAlpha h, hc, ← insertWords_append]
  cases s.letter <;> rfl

/-- A byte of code moves from what follows the unfinished line into it. -/
theorem fieldsAfter_feedCode (s : LineReader) {b : UInt8} (hl : ByteKind.isLineEnd b = false)
    (ho : LineParts.opensComment b = false) (cs : List Char) :
    (s.feedCode b).1.fieldsAfter cs = s.fieldsAfter (codeText [b] ++ cs) := by
  unfold feedCode codeText
  rw [ofByte_of_code hl ho, List.map_singleton, List.filter_cons, List.filter_nil]
  cases hn : Numeral.isNumeralChar (byteChar b) with
  | true =>
    rw [Bool.or_true]
    exact s.fieldsAfter_push hn cs
  | false =>
    cases ha : (byteChar b).isAlpha with
    | true => exact s.fieldsAfter_endWord ha cs
    | false => rfl

end LineReader
end Engraver
