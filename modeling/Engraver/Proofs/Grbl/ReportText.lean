import Engraver.Grbl.Emulator
import Engraver.Proofs.Grbl.ReportFields
import Engraver.Proofs.Number.Places

/-! # The text of a status report

A line that was written for a report falls into three fields, the entries of which are numerals.
No character of a numeral is a separator, part of a marker or blank, so reading finds the texts of
the numbers again. They are read as numbers with the same texts.
-/

namespace Engraver

namespace Text

variable {cs bs : List Char}

theorem trim_eq_self (h : ∀ c ∈ cs, ¬ isBlank c) : trim cs = cs := by
  have hkeep {ds : List Char} (hd : ∀ c ∈ ds, ¬ isBlank c) : ds.dropWhile isBlank = ds := by
    cases ds with
    | nil => rfl
    | cons d ds => exact List.dropWhile_cons_of_neg (hd d List.mem_cons_self)
  rw [trim, hkeep h, hkeep fun c hc => h c (List.mem_reverse.mp hc), List.reverse_reverse]

theorem not_isBlank_head_of_trim {c : Char} (h : trim (c :: cs) = c :: cs) : ¬ isBlank c := by
  intro hc
  have hle := List.length_dropWhile_le isBlank cs
  have hle' := List.length_dropWhile_le isBlank (cs.dropWhile isBlank).reverse
  have hlength := congrArg List.length h
  rw [trim, List.dropWhile_cons_of_pos hc, List.length_reverse, List.length_cons] at hlength
  rw [List.length_reverse] at hle'
  omega

theorem trim_append {c d : Char} (hc : ¬ isBlank c) (hd : ¬ isBlank d)
    (hbs : ∀ b ∈ bs, isBlank b) : trim (c :: cs ++ d :: bs) = c :: cs ++ [d] := by
  have hblank : bs.reverse.dropWhile isBlank = [] :=
    List.dropWhile_eq_nil_iff.mpr fun b hb => hbs b (List.mem_reverse.mp hb)
  have hback : (c :: cs ++ d :: bs).reverse.dropWhile isBlank = d :: (c :: cs).reverse := by
    rw [List.reverse_append, List.reverse_cons (a := d), List.append_assoc, List.singleton_append,
      List.dropWhile_append, hblank]
    exact List.dropWhile_cons_of_neg hd
  rw [trim, List.cons_append, List.dropWhile_cons_of_neg hc, ← List.cons_append, hback]
  simp

end Text

namespace StatusReport

def figures : List Char :=
  ['0', '1', '2', '3', '4', '5', '6', '7', '8', '9', '-', '.', 'i', 'n', 'f', 'N', 'a']

theorem mem_figures_of_isDigit {c : Char} (h : c.isDigit) : c ∈ figures := by
  have hcodes : ∀ n < 58, 48 ≤ n → Char.ofNat n ∈ figures := by decide +kernel
  simp only [Char.isDigit, Bool.and_eq_true, decide_eq_true_eq] at h
  have hmem := hcodes c.toNat (Nat.lt_succ_of_le h.2) h.1
  rwa [Char.ofNat_toNat] at hmem

theorem mem_figures_of_mem_render {places : ℕ} {x : Float} {c : Char}
    (hc : c ∈ (Fixed.render places x).toList) : c ∈ figures := by
  cases hx : Binary.ofFloat x with
  | nan =>
    rw [Fixed.render, hx] at hc
    have hword : "NaN".toList ⊆ figures := by decide
    exact hword hc
  | infinite negative =>
    rw [Fixed.render, hx] at hc
    have hword : ∀ b : Bool, (if b then "-inf" else "inf").toList ⊆ figures := by decide
    exact hword negative hc
  | finite negative m q =>
    obtain ⟨whole, fraction, hcut, -, -, hw, hf, -⟩ :=
      Fixed.exists_pointed_eq places (Fixed.units places m q)
    have hdigits : ∀ d ∈ Fixed.pointed places (Fixed.units places m q), d ∈ figures := by
      intro d hd
      rw [hcut, List.mem_append, List.mem_cons] at hd
      rcases hd with hd | rfl | hd
      · exact mem_figures_of_isDigit (hw d hd)
      · decide +kernel
      · exact mem_figures_of_isDigit (hf d hd)
    rw [Fixed.render_of_finite hx, String.toList_ofList] at hc
    cases negative with
    | true =>
      rcases List.mem_cons.mp hc with rfl | hc
      · decide +kernel
      · exact hdigits c hc
    | false => exact hdigits c hc

theorem mem_figures_of_mem_toString {n : ℤ} {c : Char} (hc : c ∈ (toString n).toList) :
    c ∈ figures := by
  have hdigits : ∀ d ∈ Nat.toDigits 10 n.natAbs, d ∈ figures := fun d hd =>
    mem_figures_of_isDigit (Nat.isDigit_of_mem_toDigits (by decide) (by decide) hd)
  rw [Numeral.toList_toString] at hc
  split at hc
  · exact hdigits c hc
  · rcases List.mem_cons.mp hc with rfl | hc
    · decide
    · exact hdigits c hc

theorem int64?_toString {n : ℤ} (h : IntRange.int64.contains n) :
    Numeral.int64? (toString n).toList = some n := by
  have hvalue : Numeral.value (Nat.toDigits 10 n.natAbs) = n.natAbs := Nat.ofDigitChars_ten_toDigits
  have hdigits : ∀ c ∈ Nat.toDigits 10 n.natAbs, c.isDigit := fun c hc =>
    Nat.isDigit_of_mem_toDigits (by decide) (by decide) hc
  have hok : ((Nat.toDigits 10 n.natAbs).isEmpty || !(Nat.toDigits 10 n.natAbs).all Char.isDigit) =
      false := by
    simp [Nat.toDigits_ne_nil, List.all_eq_true.mpr hdigits]
  have hsplit : Numeral.splitSign (toString n).toList =
      (decide (n < 0), Nat.toDigits 10 n.natAbs) := by
    obtain ⟨d, ds, hds⟩ := List.exists_cons_of_ne_nil (@Nat.toDigits_ne_nil n.natAbs 10)
    rw [Numeral.toList_toString]
    split
    · next hn =>
      rw [decide_eq_false (by omega), hds]
      exact Numeral.splitSign_of_isDigit (hdigits d (hds ▸ List.mem_cons_self))
    · next hn => rw [decide_eq_true (by omega)]; rfl
  have hint : Numeral.int? (toString n).toList = some n := by
    rw [Numeral.int?, hsplit]
    dsimp only
    rw [hok, hvalue]
    rw [if_neg (by decide)]
    congr 1
    split
    · next hn => rw [decide_eq_true_iff] at hn; omega
    · next hn => rw [decide_eq_true_iff] at hn; omega
  rw [Numeral.int64?, hint, Option.filter_some, if_pos h]

theorem figures_spec {c : Char} (hc : c ∈ figures) :
    ¬ Text.isBlank c ∧ c ≠ ',' ∧ c ≠ '|' ∧ c ≠ 'F' ∧ c ≠ '>' := by
  have hall : figures.all (fun c => !Text.isBlank c && c != ',' && c != '|' && c != 'F' &&
      c != '>') = true := by decide
  simpa [and_assoc] using List.all_eq_true.mp hall c hc

/-- A report with a state name that can stand in a line, and a power of 64 bits. -/
structure Printable (r : StatusReport) : Prop where
  state_ne : r.state ≠ ""
  trimmed : Text.trim r.state.toList = r.state.toList
  bar : '|' ∉ r.state.toList
  position : ¬ positionMarker <:+: r.state.toList
  speed : ¬ speedMarker <:+: r.state.toList
  power : IntRange.int64.contains r.power

def coordinate (x : Float) : List Char :=
  (Fixed.render 6 x).toList

def positionField (r : StatusReport) : List Char :=
  positionMarker ++ (coordinate r.x ++ ',' :: (coordinate r.y ++ ',' :: coordinate r.z))

def speedField (r : StatusReport) : List Char :=
  speedMarker ++ (coordinate r.feed ++ ',' :: (toString r.power).toList)

def body (r : StatusReport) : List Char :=
  r.state.toList ++ '|' :: (positionField r ++ '|' :: speedField r)

theorem toList_format (r : StatusReport) :
    r.format.toList = '<' :: (body r ++ ['>', '\r', '\n']) := by
  simp [format, body, positionField, speedField, coordinate, positionMarker, speedMarker]

theorem entries_eq_singleton {e : List Char} (h : ',' ∉ e) : entries e = [e] := by
  induction e with
  | nil => rfl
  | cons c e ih =>
    rw [List.mem_cons, not_or] at h
    rw [entries, if_neg (Ne.symm h.1), ih h.2]

theorem entries_append {e es : List Char} (h : ',' ∉ e) :
    entries (e ++ ',' :: es) = e :: entries es := by
  induction e with
  | nil => rfl
  | cons c e ih =>
    rw [List.mem_cons, not_or] at h
    rw [List.cons_append, entries, if_neg (Ne.symm h.1), ih h.2]

variable {r : StatusReport}

theorem mem_figures_of_mem_coordinate {x : Float} {c : Char} (hc : c ∈ coordinate x) :
    c ∈ figures :=
  mem_figures_of_mem_render hc

theorem mem_of_mem_positionField {c : Char} (hc : c ∈ positionField r) :
    c ∈ positionMarker ∨ c = ',' ∨ c ∈ figures := by
  simp only [positionField, List.mem_append, List.mem_cons] at hc
  rcases hc with hc | hc | hc | hc | hc | hc
  · exact .inl hc
  · exact .inr (.inr (mem_figures_of_mem_coordinate hc))
  · exact .inr (.inl hc)
  · exact .inr (.inr (mem_figures_of_mem_coordinate hc))
  · exact .inr (.inl hc)
  · exact .inr (.inr (mem_figures_of_mem_coordinate hc))

theorem mem_of_mem_speedField {c : Char} (hc : c ∈ speedField r) :
    c ∈ speedMarker ∨ c = ',' ∨ c ∈ figures := by
  simp only [speedField, List.mem_append, List.mem_cons] at hc
  rcases hc with hc | hc | hc | hc
  · exact .inl hc
  · exact .inr (.inr (mem_figures_of_mem_coordinate hc))
  · exact .inr (.inl hc)
  · exact .inr (.inr (mem_figures_of_mem_toString hc))

theorem bar_notMem_positionField : '|' ∉ positionField r := by
  intro hc
  rcases mem_of_mem_positionField hc with hc | hc | hc
  · exact absurd hc (by decide)
  · exact absurd hc (by decide)
  · exact (figures_spec hc).2.2.1 rfl

theorem bar_notMem_speedField : '|' ∉ speedField r := by
  intro hc
  rcases mem_of_mem_speedField hc with hc | hc | hc
  · exact absurd hc (by decide)
  · exact absurd hc (by decide)
  · exact (figures_spec hc).2.2.1 rfl

/-- The speed is not looked for in the position. -/
theorem not_speedMarker_infix_positionField : ¬ speedMarker <:+: positionField r := by
  intro hinfix
  have hF : 'F' ∈ positionField r := hinfix.subset (by decide)
  rcases mem_of_mem_positionField hF with hc | hc | hc
  · exact absurd hc (by decide)
  · exact absurd hc (by decide)
  · exact (figures_spec hc).2.2.2.1 rfl

theorem ne_bar_of_notMem {f : List Char} (h : '|' ∉ f) : ∀ c ∈ f, decide (c = '|') = false := by
  intro c hc
  apply decide_eq_false
  rintro rfl
  exact h hc

theorem splitOnP_body (h : '|' ∉ r.state.toList) :
    (body r).splitOnP (· = '|') = [r.state.toList, positionField r, speedField r] := by
  rw [body, List.splitOnP_append_cons_of_forall_mem (ne_bar_of_notMem h) '|' rfl,
    List.splitOnP_append_cons_of_forall_mem (ne_bar_of_notMem bar_notMem_positionField) '|' rfl,
    List.splitOnP_eq_singleton (ne_bar_of_notMem bar_notMem_speedField)]

theorem number?_coordinate (x : Float) :
    number? (coordinate x) = Numeral.float? (coordinate x) := by
  rw [number?, Text.trim_eq_self fun c hc => (figures_spec (mem_figures_of_mem_coordinate hc)).1]

theorem comma_notMem_coordinate {x : Float} : ',' ∉ coordinate x := fun hc =>
  (figures_spec (mem_figures_of_mem_coordinate hc)).2.1 rfl

theorem comma_notMem_toString {n : ℤ} : ',' ∉ (toString n).toList := fun hc =>
  (figures_spec (mem_figures_of_mem_toString hc)).2.1 rfl

theorem foundOf?_position (h : Printable r) {x y z : Float} (hx : number? (coordinate r.x) = some x)
    (hy : number? (coordinate r.y) = some y) (hz : number? (coordinate r.z) = some z) :
    foundOf? positionMarker firstNumbers? [r.state.toList, positionField r, speedField r] =
      some (x, y, z) := by
  have hfield : behind? positionMarker (positionField r) =
      some (coordinate r.x ++ ',' :: (coordinate r.y ++ ',' :: coordinate r.z)) := by
    rw [positionField, behind?_of_begins (by decide) (List.prefix_append _ _), List.drop_left]
  have hentries : entries (coordinate r.x ++ ',' :: (coordinate r.y ++ ',' :: coordinate r.z)) =
      [coordinate r.x, coordinate r.y, coordinate r.z] := by
    rw [entries_append comma_notMem_coordinate, entries_append comma_notMem_coordinate,
      entries_eq_singleton comma_notMem_coordinate]
  rw [foundOf?, List.findSome?_cons, behind?_of_not_infix (by decide) h.position,
    List.findSome?_cons, hfield, Option.bind_some, hentries]
  simp [firstNumbers?, hx, hy, hz]

theorem foundOf?_speed (h : Printable r) {feed : Float}
    (hfeed : number? (coordinate r.feed) = some feed) :
    foundOf? speedMarker feedPower? [r.state.toList, positionField r, speedField r] =
      some (feed, r.power) := by
  have hfield : behind? speedMarker (speedField r) =
      some (coordinate r.feed ++ ',' :: (toString r.power).toList) := by
    rw [speedField, behind?_of_begins (by decide) (List.prefix_append _ _), List.drop_left]
  have hentries : entries (coordinate r.feed ++ ',' :: (toString r.power).toList) =
      [coordinate r.feed, (toString r.power).toList] := by
    rw [entries_append comma_notMem_coordinate, entries_eq_singleton comma_notMem_toString]
  have hpower : Numeral.int64? (Text.trim (toString r.power).toList) = some r.power := by
    rw [Text.trim_eq_self fun c hc => (figures_spec (mem_figures_of_mem_toString hc)).1,
      int64?_toString h.power]
  rw [foundOf?, List.findSome?_cons, behind?_of_not_infix (by decide) h.speed,
    List.findSome?_cons, behind?_of_not_infix (by decide) not_speedMarker_infix_positionField,
    List.findSome?_cons, hfield, Option.bind_some, hentries]
  simp only [feedPower?, hfeed, hpower]
  rfl

theorem parse?_of_body {line : String} (h : Printable r)
    (hline : unbracket (Text.trim line.toList) = body r) {s : StatusReport}
    (hx : number? (coordinate r.x) = some s.x) (hy : number? (coordinate r.y) = some s.y)
    (hz : number? (coordinate r.z) = some s.z) (hfeed : number? (coordinate r.feed) = some s.feed)
    (hstate : s.state = r.state) (hpower : s.power = r.power) : parse? line = some s := by
  have hfields : fields line = [r.state.toList, positionField r, speedField r] := by
    rw [fields, hline, splitOnP_body h.bar]
  rw [parse?_eq_ofParts?, hfields, foundOf?_position h hx hy hz, foundOf?_speed h hfeed,
    ofParts?_eq_some_iff, hstate, hpower]
  exact ⟨h.trimmed, h.state_ne, rfl, rfl⟩

theorem exists_body_eq_concat (r : StatusReport) : ∃ cs d, body r = cs ++ [d] ∧ d ∈ figures := by
  have hne : (toString r.power).toList ≠ [] := by
    rw [Numeral.toList_toString]
    split
    · exact Nat.toDigits_ne_nil
    · exact List.cons_ne_nil _ _
  refine ⟨(body r).dropLast, (toString r.power).toList.getLast hne, ?_,
    mem_figures_of_mem_toString (List.getLast_mem hne)⟩
  have hlast : (body r).getLast? = some ((toString r.power).toList.getLast hne) := by
    simp only [body, speedField, List.getLast?_append, List.getLast?_cons,
      List.getLast?_eq_some_getLast hne]
    simp
  exact (List.dropLast_append_getLast? _ hlast).symm

theorem unbracket_concat {cs : List Char} {d : Char} (h : d ≠ '>') :
    unbracket (cs ++ [d]) = cs ++ [d] := by
  unfold unbracket
  split
  · next r heq =>
    have hlast : ('<' :: r).getLast? = some d := by
      rw [← heq]
      exact List.getLast?_concat
    rw [if_neg fun hr => ?_]
    rw [List.getLast?_cons, hr] at hlast
    exact h (Option.some.inj hlast).symm
  · rfl

theorem unbracket_bracketed (cs : List Char) : unbracket ('<' :: (cs ++ ['>'])) = cs := by
  simp [unbracket]

theorem unbracket_trim (h : Printable r) {text ending : List Char}
    (htext : text = body r ∨ text = '<' :: (body r ++ ['>']))
    (hending : ∀ c ∈ ending, Text.isBlank c) :
    unbracket (Text.trim (text ++ ending)) = body r := by
  rcases htext with rfl | rfl
  · obtain ⟨cs, d, hcut, hd⟩ := exists_body_eq_concat r
    obtain ⟨c, name, hname⟩ := List.exists_cons_of_ne_nil
      (fun hnil : r.state.toList = [] => h.state_ne (String.toList_inj.mp hnil))
    have hc : ¬ Text.isBlank c := Text.not_isBlank_head_of_trim (hname ▸ h.trimmed)
    obtain ⟨cs, rfl⟩ : ∃ cs', cs = c :: cs' := by
      cases cs with
      | nil => simp [body, hname] at hcut
      | cons c' cs =>
        rw [body, hname] at hcut
        exact ⟨cs, by rw [(List.cons.inj hcut).1]⟩
    rw [hcut, List.append_assoc, List.singleton_append,
      Text.trim_append hc (figures_spec hd).1 hending, unbracket_concat (figures_spec hd).2.2.2.2]
  · have hright : ¬ Text.isBlank '>' := by decide
    have hleft : ¬ Text.isBlank '<' := by decide
    rw [List.cons_append, List.append_assoc, List.singleton_append, ← List.cons_append,
      Text.trim_append hleft hright hending]
    exact unbracket_bracketed (body r)

/-- Every state has a name that a report can be written with. -/
theorem printable_report (e : Emulator) : Printable e.report := by
  have hpower := Binary.contains_saturate (r := .int64) (by decide) (by decide)
    (Binary.ofFloat e.machine.power)
  have hname : ∀ state : MachineState, state.name ≠ "" ∧
      Text.trim state.name.toList = state.name.toList ∧ '|' ∉ state.name.toList ∧
      ¬ positionMarker <:+: state.name.toList ∧ ¬ speedMarker <:+: state.name.toList := by
    intro state
    cases state <;> decide
  obtain ⟨hne, htrim, hbar, hposition, hspeed⟩ := hname e.machine.state
  exact ⟨hne, htrim, hbar, hposition, hspeed, hpower⟩

/-- A report is read off its line, and off the line without its brackets or its line end: state and
power as they were, and the numbers that its six places show, so that it is written as the same line
again. Every report of an emulator can be written so. -/
theorem parse?_format :
    (∀ r : StatusReport, Printable r → ∃ s : StatusReport,
      parse? r.format = some s ∧ s.state = r.state ∧ s.power = r.power ∧
      Numeral.float? (Fixed.render 6 r.x).toList = some s.x ∧
      Numeral.float? (Fixed.render 6 r.y).toList = some s.y ∧
      Numeral.float? (Fixed.render 6 r.z).toList = some s.z ∧
      Numeral.float? (Fixed.render 6 r.feed).toList = some s.feed ∧
      s.format = r.format ∧
      ∀ body, r.format = "<" ++ body ++ ">\r\n" →
        parse? ("<" ++ body ++ ">") = some s ∧ parse? (body ++ "\r\n") = some s ∧
        parse? body = some s) ∧
    ∀ e : Emulator, Printable e.report := by
  constructor
  · intro r h
    obtain ⟨x, hx, hx'⟩ := Fixed.exists_float?_render 6 r.x
    obtain ⟨y, hy, hy'⟩ := Fixed.exists_float?_render 6 r.y
    obtain ⟨z, hz, hz'⟩ := Fixed.exists_float?_render 6 r.z
    obtain ⟨feed, hfeed, hfeed'⟩ := Fixed.exists_float?_render 6 r.feed
    have hread {line : String} (text ending : List Char) (hline : line.toList = text ++ ending)
        (htext : text = body r ∨ text = '<' :: (body r ++ ['>']))
        (hending : ∀ c ∈ ending, Text.isBlank c) :
        parse? line = some ⟨r.state, x, y, z, feed, r.power⟩ :=
      parse?_of_body h (by rw [hline, unbracket_trim h htext hending])
        ((number?_coordinate _).trans hx) ((number?_coordinate _).trans hy)
        ((number?_coordinate _).trans hz) ((number?_coordinate _).trans hfeed) rfl rfl
    have hlineEnd : ∀ c ∈ ['\r', '\n'], Text.isBlank c := by
      simp only [List.mem_cons, List.not_mem_nil, or_false]
      rintro c (rfl | rfl) <;> decide
    refine ⟨⟨r.state, x, y, z, feed, r.power⟩, ?_, rfl, rfl, hx, hy, hz, hfeed, ?_, ?_⟩
    · exact hread ('<' :: (body r ++ ['>'])) ['\r', '\n'] (by simp [toList_format]) (.inr rfl)
        hlineEnd
    · simp only [format, hx', hy', hz', hfeed']
    · intro inner hinner
      have hbody : inner.toList = body r := by
        have htoList := congrArg String.toList hinner
        rw [toList_format] at htoList
        simpa using htoList.symm
      refine ⟨?_, ?_, ?_⟩
      · exact hread ('<' :: (body r ++ ['>'])) [] (by simp [hbody]) (.inr rfl) (by simp)
      · exact hread (body r) ['\r', '\n'] (by simp [hbody]) (.inl rfl) hlineEnd
      · exact hread (body r) [] (by simp [hbody]) (.inl rfl) (by simp)
  · exact printable_report

theorem parse?_format_hold :
    ∃ s : StatusReport, parse? (format ⟨"Hold:0", -0.0, 1.0 / 0.0, 0.0 / 0.0, 1.5, -1⟩) = some s ∧
      s.format = format ⟨"Hold:0", -0.0, 1.0 / 0.0, 0.0 / 0.0, 1.5, -1⟩ ∧ s.power = -1 := by
  have hprintable : Printable ⟨"Hold:0", -0.0, 1.0 / 0.0, 0.0 / 0.0, 1.5, -1⟩ :=
    ⟨by decide, by decide, by decide, by decide, by decide, by decide⟩
  obtain ⟨s, hread, -, hpower, -, -, -, -, hformat, -⟩ := parse?_format.1 _ hprintable
  exact ⟨s, hread, hformat, hpower⟩

end StatusReport
end Engraver
