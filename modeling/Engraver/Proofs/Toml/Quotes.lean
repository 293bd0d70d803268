import Engraver.Toml.Parser
import Engraver.Toml.Quoted
import Mathlib.Data.List.TakeDrop

/-! # Quoted texts in TOML

Whatever style a text is quoted in, it is read back. An escaped text holds no quote that could
close it, save where the quotes of its end run into the closing ones; there the reader takes the
last three for the closing, and at most two are left in front of them.
-/

namespace Engraver.Toml

variable {cs r : List Char} {c : Char} {lines : Bool}

def EscapeOf (c : Char) (e : List Char) : Prop :=
  ∃ d s, e = '\\' :: d :: s ∧ isBlank d = false ∧ d ≠ '\n' ∧ d ≠ '\r' ∧
    ∀ r, escape? (d :: (s ++ r)) = some (c, r)

theorem toNat_lt_of_isControl (h : isControl c) : c.toNat < 256 := by
  rw [isControl, Bool.or_eq_true, decide_eq_true_eq, decide_eq_true_eq] at h
  rcases h with h | rfl
  · have : c.toNat < 32 := h
    omega
  · decide

theorem scalarEscape?_upper (hc : c.toNat < 256) :
    scalarEscape? 4 ('0' :: '0' :: (Text.hexDigit (c.toNat / 16)).toUpper ::
      (Text.hexDigit c.toNat).toUpper :: r) = some (c, r) := by
  have hvalid : c.toNat.isValidChar := c.valid
  have hnumber := Text.hexNumber?_byte (Text.digitValue?_toUpper_hexDigit (c.toNat / 16))
    (Text.digitValue?_toUpper_hexDigit c.toNat)
  simp [scalarEscape?, hnumber, Nat.mod_eq_of_lt hc, scalar?, hvalid]

/-- A character is written as an escape, or stands as it is: a plain one, or a line feed on several
lines. -/
theorem escape_cases (lines : Bool) (c : Char) :
    EscapeOf c (escape lines c) ∨
      escape lines c = [c] ∧ c ≠ '\\' ∧
        (isPlain c = true ∧ c ≠ '\n' ∨ lines = true ∧ c = '\n') := by
  unfold escape
  split_ifs with h1 h2 h3 h4 h5 h6 h7 h8
  · exact .inl ⟨_, _, rfl, by decide, by decide, by decide, fun r => by rw [h1]; rfl⟩
  · exact .inl ⟨_, _, rfl, by decide, by decide, by decide, fun r => by rw [h2]; rfl⟩
  · rw [h3]
    exact .inr ⟨rfl, by decide, .inr ⟨h4, rfl⟩⟩
  · exact .inl ⟨_, _, rfl, by decide, by decide, by decide, fun r => by rw [h3]; rfl⟩
  · exact .inl ⟨_, _, rfl, by decide, by decide, by decide, fun r => by rw [h5]; rfl⟩
  · exact .inl ⟨_, _, rfl, by decide, by decide, by decide, fun r => by rw [h6]; rfl⟩
  · exact .inl ⟨_, _, rfl, by decide, by decide, by decide, fun r => by rw [h7]; rfl⟩
  · exact .inl ⟨_, _, rfl, by decide, by decide, by decide,
      fun r => scalarEscape?_upper (toNat_lt_of_isControl h8)⟩
  · refine .inr ⟨rfl, h7, .inl ⟨?_, h3⟩⟩
    rw [isControl, Bool.or_eq_true, decide_eq_true_eq, decide_eq_true_eq, not_or, Char.not_lt] at h8
    simp [isPlain, h8]

theorem escapeOf_quote : EscapeOf '"' ['\\', '"'] :=
  ⟨_, _, rfl, by decide, by decide, by decide, fun _ => rfl⟩

theorem length_pos_escape (lines : Bool) (c : Char) : 0 < (escape lines c).length := by
  rcases escape_cases lines c with ⟨d, s, he, -⟩ | ⟨he, -⟩ <;> simp [he]

theorem length_le_escapeAll (lines : Bool) (run : ℕ) (cs : List Char) :
    cs.length ≤ (escapeAll lines run cs).length := by
  induction cs generalizing run with
  | nil => exact Nat.zero_le _
  | cons c cs ih =>
    have hpos := length_pos_escape lines c
    have hmore := ih (run + 1)
    have hless := ih 0
    rw [escapeAll]
    split_ifs <;> simp only [List.length_cons, List.length_append] <;> omega

theorem basicText?_escapeOf {e : List Char} (he : EscapeOf c e) {fuel : ℕ} :
    basicText? (fuel + 1) (e ++ r) = (basicText? fuel r).map fun p => (c :: p.1, p.2) := by
  obtain ⟨d, s, rfl, -, -, -, hread⟩ := he
  rw [List.cons_append, List.cons_append, basicText?, if_neg (by decide), if_pos rfl, hread,
    Option.bind_eq_bind, Option.bind_some]
  dsimp only
  cases basicText? fuel r <;> rfl

theorem basicText?_plain (hplain : isPlain c = true) (hslash : c ≠ '\\') (hquote : c ≠ '"')
    {fuel : ℕ} :
    basicText? (fuel + 1) (c :: r) = (basicText? fuel r).map fun p => (c :: p.1, p.2) := by
  rw [basicText?, if_neg hquote, if_neg hslash, if_pos hplain]

theorem basicText?_escapeAll {fuel : ℕ} (hfuel : cs.length < fuel) :
    basicText? fuel (escapeAll false 0 cs ++ '"' :: r) = some (cs, r) := by
  induction cs generalizing fuel with
  | nil =>
    obtain ⟨n, rfl⟩ := Nat.exists_eq_add_of_lt hfuel
    simp [escapeAll, basicText?]
  | cons c cs ih =>
    obtain ⟨fuel, rfl⟩ := Nat.exists_eq_succ_of_ne_zero (show fuel ≠ 0 by omega)
    have ih := ih (Nat.lt_of_succ_lt_succ hfuel)
    by_cases hquote : c = '"'
    · subst hquote
      have hcons : escapeAll false 0 ('"' :: cs) ++ '"' :: r =
          ['\\', '"'] ++ (escapeAll false 0 cs ++ '"' :: r) := by
        simp [escapeAll]
      rw [hcons, basicText?_escapeOf escapeOf_quote, ih]
      rfl
    · have hcons : escapeAll false 0 (c :: cs) ++ '"' :: r =
          escape false c ++ (escapeAll false 0 cs ++ '"' :: r) := by
        simp [escapeAll, hquote]
      rw [hcons]
      rcases escape_cases false c with he | ⟨he, hslash, hplain | ⟨hlines, -⟩⟩
      · rw [basicText?_escapeOf he, ih]
        rfl
      · rw [he, List.singleton_append, basicText?_plain hplain.1 hslash hquote, ih]
        rfl
      · cases hlines

theorem isPlain_of_not_needsEscape (h : needsEscape c = false) (hc : c ≠ '\n') :
    isPlain c = true := by
  simp only [needsEscape, isControl, isPlain] at h ⊢
  grind

/-- Up to two quotes in front of three belong to the text. -/
theorem closing?_replicate {quote d : Char} (hd : d ≠ quote) {n : ℕ} (hn : n ≤ 2) :
    closing? quote (List.replicate n quote ++ quote :: quote :: quote :: d :: r) =
      some (List.replicate n quote, d :: r) := by
  have hjoin : List.replicate n quote ++ quote :: quote :: quote :: d :: r =
      List.replicate (n + 3) quote ++ d :: r := by
    rw [← List.replicate_append_replicate, List.append_assoc]
    rfl
  have hrun : (List.replicate (n + 3) quote ++ d :: r).takeWhile (· = quote) =
      List.replicate (n + 3) quote := by
    rw [List.takeWhile_append_of_pos (by simp), List.takeWhile_cons_of_neg (by simpa using hd),
      List.append_nil]
  rw [hjoin, closing?, hrun, List.length_replicate, if_pos (by omega),
    List.drop_left' (by simp)]
  rfl

/-- Quotes in front of the closing ones stand only at the end of a text. -/
theorem eq_replicate_of_isPrefixOf {run n : ℕ} (hsum : 3 ≤ run + n)
    (h : (List.replicate n '"').isPrefixOf
      (escapeAll true run cs ++ '"' :: '"' :: '"' :: r) = true) (hrun : run ≤ 2) :
    ∃ k, cs = List.replicate k '"' ∧ run + k ≤ 2 := by
  induction cs generalizing run n with
  | nil => exact ⟨0, rfl, hrun⟩
  | cons c cs ih =>
    obtain ⟨n, rfl⟩ := Nat.exists_eq_succ_of_ne_zero (show n ≠ 0 by omega)
    rw [List.replicate_succ] at h
    by_cases hquote : c = '"'
    · subst hquote
      by_cases hlt : run < 2
      · simp only [escapeAll, hlt, decide_true, Bool.true_and, if_true, List.cons_append,
          List.isPrefixOf_cons_cons, beq_self_eq_true] at h
        obtain ⟨k, rfl, hk⟩ := ih (show 3 ≤ run + 1 + n by omega) h (by omega)
        exact ⟨k + 1, rfl, by omega⟩
      · simp [escapeAll, hlt, List.isPrefixOf] at h
    · exfalso
      rcases escape_cases true c with ⟨d, s, he, -⟩ | ⟨he, -⟩
      · simp [escapeAll, hquote, he, List.isPrefixOf] at h
      · simp [escapeAll, hquote, he, List.isPrefixOf] at h
        exact hquote h.1.symm

theorem escapeAll_replicate {run k : ℕ} (h : run + k ≤ 2) :
    escapeAll true run (List.replicate k '"') = List.replicate k '"' := by
  induction k generalizing run with
  | zero => rfl
  | succ k ih =>
    rw [List.replicate_succ, escapeAll, if_pos rfl, if_pos (by simp; omega), ih (by omega)]

theorem newline?_eq_none (h : c ≠ '\n' ∧ c ≠ '\r') : newline? (c :: r) = none := by
  simp [newline?, h]

theorem basicLines?_escapeOf {e : List Char} (he : EscapeOf c e) {fuel : ℕ} :
    basicLines? (fuel + 1) (e ++ r) = (basicLines? fuel r).map fun p => (c :: p.1, p.2) := by
  obtain ⟨d, s, rfl, hblank, hfeed, hreturn, hread⟩ := he
  have hskip : skipBlanks (d :: (s ++ r)) = d :: (s ++ r) := by
    rw [skipBlanks, List.dropWhile_cons_of_neg (by simp [hblank])]
  rw [List.cons_append, List.cons_append, basicLines?, if_neg (by simp [startsWith]), if_pos rfl,
    hskip, newline?_eq_none ⟨hfeed, hreturn⟩]
  dsimp only
  rw [hread, Option.bind_eq_bind, Option.bind_some]
  dsimp only
  cases basicLines? fuel r <;> rfl

theorem isPlain_ne (h : isPlain c = true) (hfeed : c ≠ '\n') : c ≠ '\n' ∧ c ≠ '\r' :=
  ⟨hfeed, by rintro rfl; exact absurd h (by decide)⟩

theorem basicLines?_plain (hstart : startsWith ['"', '"', '"'] (c :: r) = false)
    (hslash : c ≠ '\\') (hplain : isPlain c = true ∧ c ≠ '\n' ∨ c = '\n') {fuel : ℕ} :
    basicLines? (fuel + 1) (c :: r) = (basicLines? fuel r).map fun p => (c :: p.1, p.2) := by
  rw [basicLines?, if_neg (by simp [hstart]), if_neg hslash]
  rcases hplain with ⟨hplain, hfeed⟩ | rfl
  · rw [newline?_eq_none (isPlain_ne hplain hfeed)]
    dsimp only
    rw [if_pos hplain]
  · rfl

theorem basicLines?_escapeAll {d : Char} (hd : d ≠ '"') {fuel run : ℕ} (hfuel : cs.length < fuel)
    (hrun : run ≤ 2) :
    basicLines? fuel (escapeAll true run cs ++ '"' :: '"' :: '"' :: d :: r) =
      some (cs, d :: r) := by
  induction cs generalizing fuel run with
  | nil =>
    obtain ⟨fuel, rfl⟩ := Nat.exists_eq_succ_of_ne_zero (show fuel ≠ 0 by omega)
    exact closing?_replicate hd (n := 0) (by decide)
  | cons c cs ih =>
    obtain ⟨fuel, rfl⟩ := Nat.exists_eq_succ_of_ne_zero (show fuel ≠ 0 by omega)
    have hless : cs.length < fuel := Nat.lt_of_succ_lt_succ hfuel
    cases hstart : startsWith ['"', '"', '"']
        (escapeAll true run (c :: cs) ++ '"' :: '"' :: '"' :: d :: r) with
    | true =>
      -- what is left are quotes that run into the closing ones
      obtain ⟨k, hk, hsum⟩ := eq_replicate_of_isPrefixOf (n := 3) (by omega) hstart hrun
      rw [hk, escapeAll_replicate hsum] at hstart ⊢
      obtain ⟨a, s, hcons⟩ := List.exists_cons_of_ne_nil
        (show List.replicate k '"' ++ '"' :: '"' :: '"' :: d :: r ≠ [] by simp)
      rw [← closing?_replicate hd (show k ≤ 2 by omega), hcons]
      rw [hcons] at hstart
      rw [basicLines?, if_pos hstart]
    | false =>
      by_cases hquote : c = '"'
      · subst hquote
        by_cases hlt : run < 2
        · have hcons : escapeAll true run ('"' :: cs) = '"' :: escapeAll true (run + 1) cs := by
            simp [escapeAll, hlt]
          rw [hcons, List.cons_append] at hstart ⊢
          rw [basicLines?_plain hstart (by decide) (by decide), ih hless (by omega)]
          rfl
        · have hcons : escapeAll true run ('"' :: cs) = ['\\', '"'] ++ escapeAll true 0 cs := by
            simp [escapeAll, hlt]
          rw [hcons, List.append_assoc, basicLines?_escapeOf escapeOf_quote,
            ih hless (by decide)]
          rfl
      · have hcons : escapeAll true run (c :: cs) = escape true c ++ escapeAll true 0 cs := by
          simp [escapeAll, hquote]
        rw [hcons, List.append_assoc] at hstart ⊢
        rcases escape_cases true c with he | ⟨he, hslash, hplain⟩
        · rw [basicLines?_escapeOf he, ih hless (by decide)]
          rfl
        · rw [he, List.singleton_append] at hstart ⊢
          rw [basicLines?_plain hstart hslash (hplain.imp_right And.right), ih hless (by decide)]
          rfl

theorem literalText?_append (h : ∀ c ∈ cs, isPlain c = true ∧ c ≠ '\'') :
    literalText? (cs ++ '\'' :: r) = some (cs, r) := by
  have hspan : (cs ++ '\'' :: r).span (fun c => isPlain c && c ≠ '\'') = (cs, '\'' :: r) := by
    rw [List.span_eq_takeWhile_dropWhile]
    have hall : ∀ c ∈ cs, (isPlain c && decide (c ≠ '\'')) = true := by simpa using h
    rw [List.takeWhile_append_of_pos hall, List.dropWhile_append_of_pos hall]
    simp
  rw [literalText?, hspan]
  rfl

/-- Quotes in front of the closing ones stand only at the end of a text without three of them. -/
theorem eq_replicate_of_startsWith (hrun : hasRun '\'' cs = false)
    (h : startsWith ['\'', '\'', '\''] (cs ++ '\'' :: '\'' :: '\'' :: r) = true) :
    ∃ k, cs = List.replicate k '\'' ∧ k ≤ 2 := by
  match cs with
  | [] => exact ⟨0, rfl, by decide⟩
  | [a] =>
    simp [startsWith, List.isPrefixOf] at h
    exact ⟨1, by rw [h]; rfl, by decide⟩
  | [a, b] =>
    simp [startsWith, List.isPrefixOf] at h
    exact ⟨2, by rw [← h.1, ← h.2]; rfl, by decide⟩
  | a :: b :: d :: s =>
    simp [startsWith, List.isPrefixOf] at h
    obtain ⟨rfl, rfl, rfl⟩ := h
    simp [hasRun] at hrun

theorem hasRun_of_cons {quote : Char} (h : hasRun quote (c :: cs) = false) :
    hasRun quote cs = false := by
  match cs with
  | [] | [_] => rfl
  | a :: b :: s =>
    rw [hasRun, Bool.or_eq_false_iff] at h
    exact h.2

theorem literalLines?_append {d : Char} (hd : d ≠ '\'') {fuel : ℕ} (hfuel : cs.length < fuel)
    (hrun : hasRun '\'' cs = false) (hplain : ∀ c ∈ cs, isPlain c = true ∨ c = '\n') :
    literalLines? fuel (cs ++ '\'' :: '\'' :: '\'' :: d :: r) = some (cs, d :: r) := by
  induction cs generalizing fuel with
  | nil =>
    obtain ⟨fuel, rfl⟩ := Nat.exists_eq_succ_of_ne_zero (show fuel ≠ 0 by omega)
    exact closing?_replicate hd (n := 0) (by decide)
  | cons c cs ih =>
    obtain ⟨fuel, rfl⟩ := Nat.exists_eq_succ_of_ne_zero (show fuel ≠ 0 by omega)
    have ih := ih (Nat.lt_of_succ_lt_succ hfuel) (hasRun_of_cons hrun) fun c hc =>
      hplain c (List.mem_cons_of_mem _ hc)
    cases hstart : startsWith ['\'', '\'', '\'']
        (c :: cs ++ '\'' :: '\'' :: '\'' :: d :: r) with
    | true =>
      obtain ⟨k, hk, hsum⟩ := eq_replicate_of_startsWith hrun hstart
      rw [List.cons_append, literalLines?, if_pos (by rwa [List.cons_append] at hstart),
        ← List.cons_append, hk, closing?_replicate hd hsum]
    | false =>
      rw [List.cons_append] at hstart ⊢
      rw [literalLines?, if_neg (by simp [hstart])]
      by_cases hfeed : c = '\n'
      · subst hfeed
        rw [newline?]
        dsimp only
        rw [ih]
        rfl
      · have hc : isPlain c = true := (hplain c List.mem_cons_self).resolve_right hfeed
        rw [newline?_eq_none (isPlain_ne hc hfeed)]
        dsimp only
        rw [if_pos hc, ih]
        rfl

theorem dropFirstNewline_opening {body : List Char}
    (h : cs.contains '\n' = false → newline? body = none) :
    dropFirstNewline ((if cs.contains '\n' then ['\n'] else []) ++ body) = body := by
  split
  · rfl
  · next hfeed =>
    rw [List.nil_append, dropFirstNewline, h (by simpa using hfeed)]
    rfl

theorem newline?_escapeAll (h : cs.contains '\n' = false) :
    newline? (escapeAll true 0 cs ++ '"' :: r) = none := by
  match cs with
  | [] => rfl
  | c :: cs =>
    by_cases hquote : c = '"'
    · simp [escapeAll, hquote, newline?]
    · simp only [escapeAll, hquote, if_false, List.append_assoc]
      rcases escape_cases true c with ⟨d, s, he, -⟩ | ⟨he, -, hplain⟩
      · rw [he]
        rfl
      · have hfeed : c ≠ '\n' := by
          rintro rfl
          simp at h
        rw [he, List.singleton_append]
        exact newline?_eq_none
          (isPlain_ne (hplain.elim And.left fun h => absurd h.2 hfeed) hfeed)

theorem escapeAll_ne_quotes (s : List Char) :
    escapeAll false 0 cs ++ '"' :: '\n' :: r ≠ '"' :: '"' :: s := by
  intro hs
  match cs with
  | [] => simp [escapeAll] at hs
  | c :: cs =>
    by_cases hquote : c = '"'
    · simp [escapeAll, hquote] at hs
    · rcases escape_cases false c with ⟨d, t, he, -⟩ | ⟨he, -⟩ <;>
        simp [escapeAll, hquote, he] at hs

theorem quotedText?_basic (cs r : List Char) :
    quotedText? ('"' :: (escapeAll false 0 cs ++ '"' :: '\n' :: r)) = some (cs, '\n' :: r) := by
  have hlength := length_le_escapeAll false 0 cs
  have hfuel : cs.length < (escapeAll false 0 cs ++ '"' :: '\n' :: r).length + 1 := by
    rw [List.length_append]
    omega
  rw [quotedText?, basicText?_escapeAll hfuel]
  intro s hs
  exact escapeAll_ne_quotes s hs

theorem quotedText?_literal (h : ∀ c ∈ cs, isPlain c = true ∧ c ≠ '\'') :
    quotedText? ('\'' :: (cs ++ '\'' :: '\n' :: r)) = some (cs, '\n' :: r) := by
  rw [quotedText?, literalText?_append h]
  intro s hs
  match cs with
  | [] => simp at hs
  | c :: cs => exact (h c List.mem_cons_self).2 (List.cons.inj hs).1

theorem quotedText?_basicLines (cs r : List Char) :
    quotedText? ('"' :: '"' :: '"' :: ((if cs.contains '\n' then ['\n'] else []) ++
      (escapeAll true 0 cs ++ '"' :: '"' :: '"' :: '\n' :: r))) = some (cs, '\n' :: r) := by
  have hlength := length_le_escapeAll true 0 cs
  rw [quotedText?, dropFirstNewline_opening newline?_escapeAll,
    basicLines?_escapeAll (by decide) ?_ (by decide)]
  simp only [List.length_append]
  omega

theorem quotedText?_literalLines (hrun : hasRun '\'' cs = false)
    (hplain : ∀ c ∈ cs, isPlain c = true ∨ c = '\n') :
    quotedText? ('\'' :: '\'' :: '\'' :: ((if cs.contains '\n' then ['\n'] else []) ++
      (cs ++ '\'' :: '\'' :: '\'' :: '\n' :: r))) = some (cs, '\n' :: r) := by
  have hopening : cs.contains '\n' = false →
      newline? (cs ++ '\'' :: '\'' :: '\'' :: '\n' :: r) = none := by
    intro hfeed
    match cs with
    | [] => rfl
    | c :: cs =>
      have hc : c ≠ '\n' := by
        rintro rfl
        simp at hfeed
      exact newline?_eq_none
        (isPlain_ne ((hplain c List.mem_cons_self).resolve_right hc) hc)
  rw [quotedText?, dropFirstNewline_opening hopening,
    literalLines?_append (by decide) ?_ hrun hplain]
  simp only [List.length_append]
  omega

theorem of_choose_literal (h : Style.choose cs = .literal) :
    ∀ c ∈ cs, isPlain c = true ∧ c ≠ '\'' := by
  have hcs : cs.any needsEscape = false ∧ cs.contains '\n' = false ∧
      cs.contains '\'' = false := by
    simp only [Style.choose] at h
    split_ifs at h with h1 h2
    simpa [and_assoc] using h2
  obtain ⟨hcontrol, hfeed, hquote⟩ := hcs
  rw [List.any_eq_false] at hcontrol
  intro c hc
  have hne : c ≠ '\n' := by
    rintro rfl
    simp [hc] at hfeed
  refine ⟨isPlain_of_not_needsEscape (by simpa using hcontrol c hc) hne, ?_⟩
  rintro rfl
  simp [hc] at hquote

theorem of_choose_literalLines (h : Style.choose cs = .literalLines) :
    hasRun '\'' cs = false ∧ ∀ c ∈ cs, isPlain c = true ∨ c = '\n' := by
  have hcs : cs.any needsEscape = false ∧ hasRun '\'' cs = false := by
    simp only [Style.choose] at h
    split_ifs at h with h1 h2 h3 h4
    simpa using h4
  obtain ⟨hcontrol, hrun⟩ := hcs
  rw [List.any_eq_false] at hcontrol
  refine ⟨hrun, fun c hc => or_iff_not_imp_right.mpr fun hne => ?_⟩
  exact isPlain_of_not_needsEscape (by simpa using hcontrol c hc) hne

theorem quotedText?_quote (s : String) :
    quotedText? ((quote s).toList ++ '\n' :: r) = some (s.toList, '\n' :: r) := by
  set cs := s.toList with hcs
  rw [quote, String.toList_ofList, ← hcs]
  cases hstyle : Style.choose cs with
  | basic =>
    have hread := quotedText?_basic cs r
    simpa [Style.delimiter, Style.hasLines, Style.isEscaped] using hread
  | literal =>
    have hread := quotedText?_literal (r := r) (of_choose_literal hstyle)
    simpa [Style.delimiter, Style.hasLines, Style.isEscaped] using hread
  | basicLines =>
    have hread := quotedText?_basicLines cs r
    simpa [Style.delimiter, Style.hasLines, Style.isEscaped] using hread
  | literalLines =>
    obtain ⟨hrun, hplain⟩ := of_choose_literalLines hstyle
    have hread := quotedText?_literalLines (r := r) hrun hplain
    simpa [Style.delimiter, Style.hasLines, Style.isEscaped] using hread

theorem exists_quote_eq_cons (s : String) :
    ∃ c r, (quote s).toList = c :: r ∧ (c = '"' ∨ c = '\'') := by
  rw [quote, String.toList_ofList]
  cases Style.choose s.toList
  · exact ⟨_, _, rfl, .inl rfl⟩
  · exact ⟨_, _, rfl, .inr rfl⟩
  · exact ⟨_, _, rfl, .inl rfl⟩
  · exact ⟨_, _, rfl, .inr rfl⟩

theorem value?_quote (s : String) {fuel depth : ℕ} :
    value? (fuel + 1) depth ((quote s).toList ++ '\n' :: r) = some (.text s, '\n' :: r) := by
  have hread := quotedText?_quote (r := r) s
  obtain ⟨c, t, hcons, rfl | rfl⟩ := exists_quote_eq_cons s
  · rw [hcons, List.cons_append] at hread ⊢
    simp [value?, hread]
  · rw [hcons, List.cons_append] at hread ⊢
    simp [value?, hread]

end Engraver.Toml
