import Engraver.Proofs.Json.Leaves

/-! # Indented JSON, read back

Whatever value is written in the indented form, the document of it is read, as far as its numbers
are read back and it is no deeper than documents may be. One turn of the reader never leaves more
than half as much fuel as there are characters left, which carries the induction on the value.
-/

namespace Engraver.Json

def Number.document : Number → Document
  | .int n => .int n
  | .float x => .float x

def Number.ReadsBack (n : Number) : Prop :=
  number? n.render.toList = some (n.document, [])

namespace Value

mutual

def document : Value → Document
  | .null => .null
  | .bool b => .bool b
  | .number n => n.document
  | .text s => .text s
  | .list xs => .list (documents xs)
  | .object ms => .table (memberDocuments ms)

def documents : List Value → List Document
  | [] => []
  | x :: r => x.document :: documents r

def memberDocuments : List (String × Value) → List (String × Document)
  | [] => []
  | (k, x) :: r => (k, x.document) :: memberDocuments r

end

mutual

/-- A value that can be read inside `depth` lists and objects. -/
def Fits (depth : ℕ) : Value → Prop
  | .null => True
  | .bool _ => True
  | .number n => n.ReadsBack
  | .text _ => True
  | .list xs => depth < maxDepth ∧ FitList (depth + 1) xs
  | .object ms => depth < maxDepth ∧ FitMembers (depth + 1) ms

def FitList (depth : ℕ) : List Value → Prop
  | [] => True
  | x :: r => x.Fits depth ∧ FitList depth r

def FitMembers (depth : ℕ) : List (String × Value) → Prop
  | [] => True
  | (_, x) :: r => x.Fits depth ∧ FitMembers depth r

end

end Value

variable {cs r : List Char} {c : Char}

theorem skipBlanks_cons (h : isBlank c = false) : skipBlanks (c :: r) = c :: r := by
  rw [skipBlanks, List.dropWhile_cons_of_neg (by simp [h])]

theorem skipBlanks_newLine (level : ℕ) (cs : List Char) :
    skipBlanks ((Value.newLine level).toList ++ cs) = skipBlanks cs := by
  have hblank : ∀ c ∈ (Value.newLine level).toList, isBlank c = true := by
    intro c hc
    rw [Value.newLine, String.toList_ofList, List.mem_cons] at hc
    rcases hc with rfl | hc
    · rfl
    · rw [List.eq_of_mem_replicate hc]
      rfl
  rw [skipBlanks, List.dropWhile_append_of_pos hblank]
  rfl

theorem ends_cons (h : c = ',' ∨ c = '\n') : Ends (c :: r) := by
  intro d hd
  cases hd
  rcases h with rfl | rfl <;> decide

theorem ends_newLine (level : ℕ) : Ends ((Value.newLine level).toList ++ r) := by
  rw [Value.newLine, String.toList_ofList, List.cons_append]
  exact ends_cons (.inr rfl)

def joined (level : ℕ) (parts : List String) : List Char :=
  (("," ++ Value.newLine level).intercalate parts).toList

theorem joined_singleton (level : ℕ) (p : String) : joined level [p] = p.toList := by
  simp [joined]

theorem joined_cons_cons (level : ℕ) (p q : String) (ps : List String) :
    joined level (p :: q :: ps) =
      p.toList ++ ',' :: ((Value.newLine level).toList ++ joined level (q :: ps)) := by
  simp [joined, String.intercalate_cons_cons]

theorem toList_block {opening closing p : String} {ps : List String} (level : ℕ) :
    (Value.block level opening closing (p :: ps)).toList =
      opening.toList ++ ((Value.newLine (level + 1)).toList ++
        (joined (level + 1) (p :: ps) ++ ((Value.newLine level).toList ++ closing.toList))) := by
  simp [Value.block, joined]

theorem toList_block_nil {opening closing : String} (level : ℕ) :
    (Value.block level opening closing []).toList = opening.toList ++ closing.toList := by
  simp [Value.block]

/-- The text begins with no blank and no closing bracket. -/
def Begins (cs : List Char) : Prop :=
  ∃ c s, cs = c :: s ∧ isBlank c = false ∧ c ≠ ']' ∧ c ≠ '\x7d'

theorem Begins.append (h : Begins cs) (r : List Char) : Begins (cs ++ r) := by
  obtain ⟨c, s, rfl, hc⟩ := h
  exact ⟨c, s ++ r, rfl, hc⟩

theorem Begins.skipBlanks_eq (h : Begins cs) : skipBlanks cs = cs := by
  obtain ⟨c, s, rfl, hblank, -⟩ := h
  exact skipBlanks_cons hblank

theorem Begins.joined {p : String} (h : Begins p.toList) (level : ℕ) (ps : List String) :
    Begins (joined level (p :: ps)) := by
  cases ps with
  | nil => rwa [joined_singleton]
  | cons q ps =>
    rw [joined_cons_cons]
    exact h.append _

theorem Begins.skipBlanks_joined {p : String} (h : Begins p.toList) (level : ℕ) (ps : List String)
    (r : List Char) :
    skipBlanks ((Value.newLine level).toList ++ (Json.joined level (p :: ps) ++ r)) =
      Json.joined level (p :: ps) ++ r :=
  (skipBlanks_newLine level _).trans ((h.joined level ps).append r).skipBlanks_eq

theorem ne_of_number {d : Char} (hc : c.isDigit ∨ c = '-') (hd : d.isDigit = false)
    (hminus : '-' ≠ d) : c ≠ d := by
  rintro rfl
  rcases hc with hc | hc
  · rw [hd] at hc
    cases hc
  · exact hminus hc.symm

theorem begins_indented {v : Value} {depth : ℕ} (h : v.Fits depth) (level : ℕ) :
    Begins (v.indented level).toList := by
  cases v with
  | null =>
    rw [Value.indented]
    exact ⟨'n', ['u', 'l', 'l'], rfl, by decide, by decide, by decide⟩
  | bool b =>
    rw [Value.indented]
    cases b
    · exact ⟨'f', ['a', 'l', 's', 'e'], rfl, by decide, by decide, by decide⟩
    · exact ⟨'t', ['r', 'u', 'e'], rfl, by decide, by decide, by decide⟩
  | number n =>
    obtain ⟨c, s, hcons, hc⟩ := exists_of_number? h
    have hblank : isBlank c = false := by
      simp [isBlank, ne_of_number hc (d := ' ') (by decide) (by decide),
        ne_of_number hc (d := '\t') (by decide) (by decide),
        ne_of_number hc (d := '\n') (by decide) (by decide),
        ne_of_number hc (d := '\r') (by decide) (by decide)]
    exact ⟨c, s, hcons, hblank, ne_of_number hc (by decide) (by decide),
      ne_of_number hc (by decide) (by decide)⟩
  | text s =>
    rw [Value.indented, quoted, String.toList_ofList]
    exact ⟨'"', _, rfl, by decide, by decide, by decide⟩
  | list xs =>
    rw [Value.indented]
    cases xs with
    | nil =>
      rw [Value.indentedList, toList_block_nil]
      exact ⟨'[', [']'], rfl, by decide, by decide, by decide⟩
    | cons x xs =>
      rw [Value.indentedList, toList_block]
      exact ⟨'[', _, rfl, by decide, by decide, by decide⟩
  | object ms =>
    rw [Value.indented]
    cases ms with
    | nil =>
      rw [Value.indentedMembers, toList_block_nil]
      exact ⟨'\x7b', ['\x7d'], rfl, by decide, by decide, by decide⟩
    | cons m ms =>
      rw [Value.indentedMembers, toList_block]
      exact ⟨'\x7b', _, rfl, by decide, by decide, by decide⟩

theorem value?_number {d : Document} (hr : Ends r) (h : number? cs = some (d, []))
    {fuel depth : ℕ} :
    value? (fuel + 1) depth (cs ++ r) = some (d, r) := by
  obtain ⟨c, s, rfl, hc⟩ := exists_of_number? h
  have hnumber := number?_append hr h
  rw [List.cons_append] at hnumber ⊢
  rw [value?, hnumber] <;> rintro t ht <;>
    exact ne_of_number hc (by decide) (by decide) (List.cons.inj ht).1

theorem value?_quoted (s : String) (r : List Char) {fuel depth : ℕ} :
    value? (fuel + 1) depth ((quoted s).toList ++ r) = some (.text s, r) := by
  obtain ⟨ps, hps, htext⟩ := exists_pieces_quoted s.toList r
  have hcons : (quoted s).toList ++ r = '"' :: (s.toList.flatMap escape ++ '"' :: r) := by
    simp [quoted]
  rw [hcons, value?, hps]
  simp [textDocument, htext]

/-- Every value is read that `n` turns suffice for. -/
def Reads (n : ℕ) : Prop :=
  ∀ {fuel : ℕ}, fuel ≤ n → ∀ {v : Value} {level depth : ℕ} {r : List Char}, v.Fits depth → Ends r →
    2 * (v.indented level).toList.length ≤ fuel →
    value? fuel depth ((v.indented level).toList ++ r) = some (v.document, r)

section

variable {n level depth fuel : ℕ} {x : Value} {xs : List Value}

theorem elements?_indented (hn : Reads n) (hle : fuel ≤ n + 1)
    (h : Value.FitList depth (x :: xs))
    (hcs : skipBlanks cs = joined level (Value.indentedList level (x :: xs)) ++
      ((Value.newLine (level - 1)).toList ++ ']' :: r))
    (hfuel : 2 * (joined level (Value.indentedList level (x :: xs))).length < fuel) :
    elements? fuel depth cs = some (Value.documents (x :: xs), r) := by
  induction xs generalizing x fuel cs with
  | nil =>
    obtain ⟨fuel, rfl⟩ := Nat.exists_eq_succ_of_ne_zero (Nat.ne_zero_of_lt hfuel)
    rw [Value.indentedList, Value.indentedList, joined_singleton] at hcs hfuel
    have hx := hn (Nat.le_of_succ_le_succ hle) h.1 (ends_newLine (r := ']' :: r) (level - 1))
      (Nat.le_of_lt_succ hfuel)
    have hskip : skipBlanks ((Value.newLine (level - 1)).toList ++ ']' :: r) = ']' :: r :=
      (skipBlanks_newLine _ _).trans (skipBlanks_cons (by decide))
    rw [elements?, hcs, hx, Option.bind_eq_bind, Option.bind_some]
    dsimp only
    rw [hskip]
    rfl
  | cons y ys ih =>
    obtain ⟨fuel, rfl⟩ := Nat.exists_eq_succ_of_ne_zero (Nat.ne_zero_of_lt hfuel)
    have hle := Nat.le_of_succ_le_succ hle
    have hmore := (begins_indented h.2.1 level).skipBlanks_joined level
      (Value.indentedList level ys) ((Value.newLine (level - 1)).toList ++ ']' :: r)
    rw [Value.indentedList, Value.indentedList, joined_cons_cons] at hcs hfuel
    rw [← Value.indentedList] at hcs hfuel hmore
    simp only [List.length_append, List.length_cons] at hfuel
    rw [List.append_assoc, List.cons_append, List.append_assoc] at hcs
    set t := (Value.newLine level).toList ++ (joined level (Value.indentedList level (y :: ys)) ++
      ((Value.newLine (level - 1)).toList ++ ']' :: r))
    have hx := hn hle h.1 (ends_cons (r := t) (.inl (rfl : ',' = ',')))
      (show 2 * (x.indented level).toList.length ≤ fuel by omega)
    have hrest := ih hle.step h.2 hmore (by omega)
    rw [elements?, hcs, hx, Option.bind_eq_bind, Option.bind_some]
    dsimp only
    rw [skipBlanks_cons (by decide)]
    change ((elements? fuel depth t).bind fun q => some (x.document :: q.1, q.2)) = _
    rw [hrest]
    rfl

theorem tableDocument_nil : tableDocument [] = .table [] :=
  rfl

theorem tableDocument_cons {k : String} {ps : List Piece} {d : Document}
    {ms : List (List Piece × Document)} {ds : List (String × Document)}
    (hps : textOf? ps = some k.toList) (hms : tableDocument ms = .table ds) :
    tableDocument ((ps, d) :: ms) = .table ((k, d) :: ds) := by
  unfold tableDocument at hms ⊢
  split at hms
  · next heq =>
    cases hms
    rw [List.mapM_cons, heq, hps]
    simp
  · cases hms

theorem exists_members?_eq {k : String} {t : List Char} {d : Document} (hd : skipBlanks t = t)
    (hcs : skipBlanks cs = '"' :: (k.toList.flatMap escape ++ '"' :: ':' :: ' ' :: t))
    (hx : value? fuel depth t = some (d, r)) :
    ∃ ps, textOf? ps = some k.toList ∧ members? (fuel + 1) depth cs =
      match skipBlanks r with
      | '\x7d' :: r => some ([(ps, d)], r)
      | ',' :: r => (members? fuel depth r).bind fun q => some ((ps, d) :: q.1, q.2)
      | _ => none := by
  obtain ⟨ps, hps, htext⟩ := exists_pieces_quoted k.toList (':' :: ' ' :: t)
  have hcolon : skipBlanks (':' :: ' ' :: t) = ':' :: ' ' :: t := skipBlanks_cons (by decide)
  have hspace : skipBlanks (' ' :: t) = t := hd
  have hread := members?.eq_def (fuel + 1) depth cs
  simp only [hcs, hps, hcolon, hspace, hx, Option.bind_eq_bind, Option.bind_some] at hread
  exact ⟨ps, htext, hread⟩

theorem toList_member (k : String) (x : Value) (level : ℕ) (t : List Char) :
    (quoted k ++ ": " ++ x.indented level).toList ++ t = '"' :: (k.toList.flatMap escape ++
      '"' :: ':' :: ' ' :: ((x.indented level).toList ++ t)) := by
  simp [quoted]

theorem begins_member (k : String) (x : Value) (level : ℕ) :
    Begins (quoted k ++ ": " ++ x.indented level).toList := by
  have hcons := toList_member k x level []
  rw [List.append_nil] at hcons
  exact ⟨'"', _, hcons, by decide, by decide, by decide⟩

theorem length_indented_le (k : String) (x : Value) (level : ℕ) :
    (x.indented level).toList.length ≤
      (quoted k ++ ": " ++ x.indented level).toList.length := by
  simp only [String.toList_append, List.length_append]
  omega

theorem exists_members?_indented (hn : Reads n) (hle : fuel ≤ n + 1) {k : String}
    {ms : List (String × Value)} (h : Value.FitMembers depth ((k, x) :: ms))
    (hcs : skipBlanks cs = joined level (Value.indentedMembers level ((k, x) :: ms)) ++
      ((Value.newLine (level - 1)).toList ++ '\x7d' :: r))
    (hfuel : 2 * (joined level (Value.indentedMembers level ((k, x) :: ms))).length < fuel) :
    ∃ ps, members? fuel depth cs = some (ps, r) ∧
      tableDocument ps = .table (Value.memberDocuments ((k, x) :: ms)) := by
  induction ms generalizing k x fuel cs with
  | nil =>
    obtain ⟨fuel, rfl⟩ := Nat.exists_eq_succ_of_ne_zero (Nat.ne_zero_of_lt hfuel)
    have hlength := length_indented_le k x level
    rw [Value.indentedMembers, Value.indentedMembers, joined_singleton] at hcs hfuel
    rw [toList_member] at hcs
    have hx := hn (Nat.le_of_succ_le_succ hle) h.1 (ends_newLine (r := '\x7d' :: r) (level - 1))
      (show 2 * (x.indented level).toList.length ≤ fuel by omega)
    obtain ⟨ps, hps, hread⟩ :=
      exists_members?_eq ((begins_indented h.1 level).append _).skipBlanks_eq hcs hx
    refine ⟨_, ?_, tableDocument_cons hps tableDocument_nil⟩
    rw [hread, skipBlanks_newLine, skipBlanks_cons (by decide)]
    rfl
  | cons m ms ih =>
    obtain ⟨j, y⟩ := m
    obtain ⟨fuel, rfl⟩ := Nat.exists_eq_succ_of_ne_zero (Nat.ne_zero_of_lt hfuel)
    have hle := Nat.le_of_succ_le_succ hle
    have hlength := length_indented_le k x level
    have hmore := (begins_member j y level).skipBlanks_joined level
      (Value.indentedMembers level ms) ((Value.newLine (level - 1)).toList ++ '\x7d' :: r)
    rw [Value.indentedMembers, Value.indentedMembers, joined_cons_cons] at hcs hfuel
    rw [← Value.indentedMembers] at hcs hfuel hmore
    simp only [List.length_append, List.length_cons] at hfuel
    rw [List.append_assoc, List.cons_append, List.append_assoc, toList_member] at hcs
    set t := (Value.newLine level).toList ++
      (joined level (Value.indentedMembers level ((j, y) :: ms)) ++
        ((Value.newLine (level - 1)).toList ++ '\x7d' :: r))
    have hx := hn hle h.1 (ends_cons (r := t) (.inl (rfl : ',' = ',')))
      (show 2 * (x.indented level).toList.length ≤ fuel by omega)
    obtain ⟨qs, hqs, hrest⟩ := ih hle.step h.2 hmore (by omega)
    obtain ⟨ps, hps, hread⟩ :=
      exists_members?_eq ((begins_indented h.1 level).append _).skipBlanks_eq hcs hx
    refine ⟨_, ?_, tableDocument_cons hps hrest⟩
    rw [hread, skipBlanks_cons (by decide)]
    change ((members? fuel depth t).bind fun q => some ((ps, x.document) :: q.1, q.2)) = _
    rw [hqs]
    rfl

theorem value?_bracket {s : List Char} {ds : List Document} (level : ℕ) (hdepth : depth < maxDepth)
    (hs : Begins s) (h : elements? fuel (depth + 1) s = some (ds, r)) :
    value? (fuel + 1) depth ('[' :: ((Value.newLine (level + 1)).toList ++ s)) =
      some (.list ds, r) := by
  have hskip := (skipBlanks_newLine (level + 1) s).trans hs.skipBlanks_eq
  obtain ⟨c, t, hcons, -, hc, -⟩ := hs
  rw [value?, hskip]
  split
  · exact absurd (List.cons.inj hcons).1.symm hc
  · rw [h, Option.bind_eq_bind, Option.bind_some]
    dsimp only
    rw [if_pos hdepth]

theorem value?_brace {s : List Char} {ps : List (List Piece × Document)}
    {ds : List (String × Document)} (level : ℕ) (hdepth : depth < maxDepth) (hs : Begins s)
    (h : members? fuel (depth + 1) s = some (ps, r)) (hps : tableDocument ps = .table ds) :
    value? (fuel + 1) depth ('\x7b' :: ((Value.newLine (level + 1)).toList ++ s)) =
      some (.table ds, r) := by
  have hskip := (skipBlanks_newLine (level + 1) s).trans hs.skipBlanks_eq
  obtain ⟨c, t, hcons, -, -, hc⟩ := hs
  rw [value?, hskip]
  split
  · exact absurd (List.cons.inj hcons).1.symm hc
  · rw [h, Option.bind_eq_bind, Option.bind_some]
    dsimp only
    rw [if_pos hdepth, hps]

theorem value?_list (hn : Reads n) (hle : fuel ≤ n) (h : (Value.list xs).Fits depth)
    (hfuel : 2 * ((Value.list xs).indented level).toList.length ≤ fuel + 1) :
    value? (fuel + 1) depth (((Value.list xs).indented level).toList ++ r) =
      some ((Value.list xs).document, r) := by
  obtain ⟨hdepth, h⟩ := h
  rw [Value.indented] at hfuel ⊢
  cases xs with
  | nil =>
    have hclosed : value? (fuel + 1) depth ('[' :: ']' :: r) =
        some (if depth < maxDepth then .list [] else .unreadable, r) := rfl
    rw [Value.indentedList, toList_block_nil]
    rw [if_pos hdepth] at hclosed
    exact hclosed
  | cons x xs =>
    have hbegins := ((begins_indented h.1 (level + 1)).joined (level + 1)
      (Value.indentedList (level + 1) xs)).append ((Value.newLine level).toList ++ ']' :: r)
    have hopening : "[".toList = ['['] := rfl
    rw [Value.indentedList, toList_block, hopening] at hfuel ⊢
    rw [← Value.indentedList] at hfuel hbegins ⊢
    simp only [List.length_append, List.length_singleton] at hfuel
    have hread := elements?_indented (r := r) hn hle.step h hbegins.skipBlanks_eq (by omega)
    simpa [Value.document] using value?_bracket level hdepth hbegins hread

theorem value?_object {ms : List (String × Value)} (hn : Reads n) (hle : fuel ≤ n)
    (h : (Value.object ms).Fits depth)
    (hfuel : 2 * ((Value.object ms).indented level).toList.length ≤ fuel + 1) :
    value? (fuel + 1) depth (((Value.object ms).indented level).toList ++ r) =
      some ((Value.object ms).document, r) := by
  obtain ⟨hdepth, h⟩ := h
  rw [Value.indented] at hfuel ⊢
  cases ms with
  | nil =>
    have hclosed : value? (fuel + 1) depth ('\x7b' :: '\x7d' :: r) =
        some (if depth < maxDepth then .table [] else .unreadable, r) := rfl
    rw [Value.indentedMembers, toList_block_nil]
    rw [if_pos hdepth] at hclosed
    exact hclosed
  | cons m ms =>
    obtain ⟨k, x⟩ := m
    have hbegins := ((begins_member k x (level + 1)).joined (level + 1)
      (Value.indentedMembers (level + 1) ms)).append ((Value.newLine level).toList ++ '\x7d' :: r)
    have hopening : "\x7b".toList = ['\x7b'] := rfl
    rw [Value.indentedMembers, toList_block, hopening] at hfuel ⊢
    rw [← Value.indentedMembers] at hfuel hbegins ⊢
    simp only [List.length_append, List.length_singleton] at hfuel
    obtain ⟨ps, hread, hps⟩ :=
      exists_members?_indented (r := r) hn hle.step h hbegins.skipBlanks_eq (by omega)
    simpa [Value.document] using value?_brace level hdepth hbegins hread hps

/-- Every value is read if there are turns for twice its characters. -/
theorem reads (n : ℕ) : Reads n := by
  induction n with
  | zero =>
    rintro fuel hle v level depth r h - hfuel
    obtain ⟨c, s, hcons, -⟩ := begins_indented h level
    rw [hcons, List.length_cons] at hfuel
    omega
  | succ n ih =>
    rintro fuel hle v level depth r h hr hfuel
    cases fuel with
    | zero => exact ih (Nat.zero_le n) h hr hfuel
    | succ fuel =>
      have hle := Nat.le_of_succ_le_succ hle
      cases v with
      | null =>
        rw [Value.indented]
        rfl
      | bool b =>
        rw [Value.indented]
        cases b <;> rfl
      | number n =>
        rw [Value.indented]
        exact value?_number hr h
      | text s =>
        rw [Value.indented]
        exact value?_quoted s r
      | list xs => exact value?_list ih hle h hfuel
      | object ms => exact value?_object ih hle h hfuel

/-- The indented text of a value holds its document. -/
theorem document?_indented {v : Value} (h : v.Fits 0) :
    document? (v.indented 0) = some v.document := by
  have hend : Ends [] := by
    rintro c ⟨⟩
  have hread := @reads _ _ (Nat.le_refl (2 * (v.indented 0).toList.length + 1)) v 0 0 [] h hend
    (Nat.le_succ _)
  rw [List.append_nil] at hread
  rw [document?, (begins_indented h 0).skipBlanks_eq, hread]
  rfl

end

end Engraver.Json
