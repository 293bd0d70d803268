import Engraver.Proofs.Toml.Quotes
import Engraver.Proofs.Toml.Scalars

/-! # Statements in TOML

A text of lines, a header or a member each, is read into its statements, and a header with new
members below it adds one table to the document.
-/

namespace Engraver.Toml

variable {cs r : List Char} {c : Char} {key name : String} {d : Document}

theorem skipBlanks_cons (h : isBlank c = false) : skipBlanks (c :: r) = c :: r := by
  rw [skipBlanks, List.dropWhile_cons_of_neg (by simp [h])]

theorem skipBlanks_of_value? {fuel depth : ℕ} {p : Document × List Char}
    (h : value? fuel depth cs = some p) : skipBlanks cs = cs := by
  match fuel, cs with
  | 0, _ => cases h
  | fuel + 1, [] => rfl
  | fuel + 1, c :: r =>
    cases hc : isBlank c with
    | false => exact skipBlanks_cons hc
    | true =>
      have hnone : value? (fuel + 1) depth (c :: r) = none := by
        rw [isBlank, Bool.or_eq_true, decide_eq_true_eq, decide_eq_true_eq] at hc
        rcases hc with rfl | rfl
        · rw [value?_eq_decimal? (by decide) (by decide)]
          rfl
        · rw [value?_eq_decimal? (by decide) (by decide)]
          rfl
      rw [hnone] at h
      cases h

structure BareKey (key : String) : Prop where
  ne_nil : key.toList ≠ []
  bare : key.toList.all isBareKey = true

instance (key : String) : Decidable (BareKey key) :=
  decidable_of_iff (key.toList ≠ [] ∧ key.toList.all isBareKey = true)
    ⟨fun h => ⟨h.1, h.2⟩, fun h => ⟨h.ne_nil, h.bare⟩⟩

theorem BareKey.isBareKey_of_mem (h : BareKey key) (hc : c ∈ key.toList) : isBareKey c = true :=
  List.all_eq_true.mp h.bare c hc

theorem isBareKey_ne (h : isBareKey c = true) {d : Char} (hd : isBareKey d = false) : c ≠ d := by
  rintro rfl
  rw [h] at hd
  cases hd

theorem BareKey.exists_cons (h : BareKey key) :
    ∃ c s, key.toList = c :: s ∧ isBareKey c = true := by
  obtain ⟨c, s, hcons⟩ := List.exists_cons_of_ne_nil h.ne_nil
  exact ⟨c, s, hcons, h.isBareKey_of_mem (hcons ▸ List.mem_cons_self)⟩

theorem isBlank_of_isBareKey (h : isBareKey c = true) : isBlank c = false := by
  have hspace := isBareKey_ne h (d := ' ') (by decide)
  have htab := isBareKey_ne h (d := '\t') (by decide)
  simp [isBlank, hspace, htab]

theorem simpleKey?_bare (h : BareKey key) (hc : isBareKey c = false) :
    simpleKey? (key.toList ++ c :: r) = some (key, c :: r) := by
  obtain ⟨a, s, hcons, ha⟩ := h.exists_cons
  have hspan : (key.toList ++ c :: r).span isBareKey = (a :: s, c :: r) := by
    have hall : ∀ c ∈ key.toList, isBareKey c = true := fun c hc => h.isBareKey_of_mem hc
    rw [List.span_eq_takeWhile_dropWhile, List.takeWhile_append_of_pos hall,
      List.dropWhile_append_of_pos hall, List.takeWhile_cons_of_neg (by simp [hc]),
      List.dropWhile_cons_of_neg (by simp [hc]), List.append_nil, hcons]
  have hkey : String.ofList (a :: s) = key := by
    rw [← hcons, String.ofList_toList]
  rw [hcons, List.cons_append] at hspan ⊢
  rw [simpleKey?, hspan]
  · dsimp only
    rw [hkey]
  · rintro t ht
    exact isBareKey_ne ha (by decide) (List.cons.inj ht).1
  · rintro t ht
    exact isBareKey_ne ha (by decide) (List.cons.inj ht).1

theorem key?_bare (h : BareKey key) (hc : isBareKey c = false)
    (hpoint : ∀ s, skipBlanks (c :: r) ≠ '.' :: s) :
    key? (key.toList ++ c :: r) = some ([key], skipBlanks (c :: r)) := by
  obtain ⟨a, s, hcons, ha⟩ := h.exists_cons
  have hskip : skipBlanks (key.toList ++ c :: r) = key.toList ++ c :: r := by
    rw [hcons, List.cons_append]
    exact skipBlanks_cons (isBlank_of_isBareKey ha)
  have hparts (fuel : ℕ) :
      keyParts? (fuel + 1) (key.toList ++ c :: r) = some ([key], skipBlanks (c :: r)) := by
    rw [keyParts?, hskip, simpleKey?_bare h hc, Option.bind_eq_bind, Option.bind_some]
    dsimp only
    split
    · next heq => exact absurd heq (hpoint _)
    · rfl
  rw [key?, hparts]
  rfl

theorem statement?_member (h : BareKey key) {text : List Char}
    (hvalue : ∀ fuel, value? (fuel + 1) 0 (text ++ '\n' :: r) = some (d, '\n' :: r)) :
    statement? (key.toList ++ ' ' :: '=' :: ' ' :: (text ++ '\n' :: r)) =
      some (.member [key] d, r) := by
  obtain ⟨a, s, hcons, ha⟩ := h.exists_cons
  have hkey := key?_bare (c := ' ') (r := '=' :: ' ' :: (text ++ '\n' :: r)) h (by decide)
    (by rintro s hs; exact absurd (List.cons.inj hs).1 (by decide))
  have hequals : skipBlanks (' ' :: '=' :: ' ' :: (text ++ '\n' :: r)) =
      '=' :: ' ' :: (text ++ '\n' :: r) := rfl
  have hskip : skipBlanks (' ' :: (text ++ '\n' :: r)) = text ++ '\n' :: r :=
    skipBlanks_of_value? (hvalue 0)
  have hend : lineEnd? ('\n' :: r) = some r := rfl
  rw [hequals] at hkey
  have hbracket : a ≠ '[' := isBareKey_ne ha (by decide)
  rw [hcons, List.cons_append] at hkey ⊢
  rw [statement?]
  · rw [hkey]
    simp [behindChar?, hskip, hvalue, hend]
  · rintro s hs
    exact hbracket (List.cons.inj hs).1
  · rintro s hs
    exact hbracket (List.cons.inj hs).1

theorem statement?_header (h : BareKey name) :
    statement? ('[' :: (name.toList ++ ']' :: '\n' :: r)) = some (.tableHeader [name], r) := by
  obtain ⟨a, s, hcons, ha⟩ := h.exists_cons
  have hkey := key?_bare (c := ']') (r := '\n' :: r) h (by decide)
    (by rintro s hs; exact absurd (List.cons.inj hs).1 (by decide))
  have hskip : skipBlanks (']' :: '\n' :: r) = ']' :: '\n' :: r := rfl
  have hend : lineEnd? ('\n' :: r) = some r := rfl
  rw [hskip] at hkey
  rw [statement?]
  · rw [hkey]
    simp [behindChar?, hend]
  · rintro t ht
    rw [hcons, List.cons_append] at ht
    exact isBareKey_ne ha (by decide) (List.cons.inj ht).1

/-- The text is a sequence of lines, empty or with a statement each. -/
inductive Lines : List Char → List Statement → Prop where
  | nil : Lines [] []
  | blank {cs ss} : Lines cs ss → Lines ('\n' :: cs) ss
  | line {c cs r s ss} : isBareKey c = true ∨ c = '[' → statement? (c :: cs) = some (s, r) →
      r.length ≤ cs.length → Lines r ss → Lines (c :: cs) (s :: ss)

theorem skipLines_statement (hc : isBareKey c = true ∨ c = '[') (n : ℕ) :
    skipLines n (c :: r) = c :: r := by
  have hne {d : Char} (hd : isBareKey d = false) (hbracket : d ≠ '[') : c ≠ d := by
    rcases hc with hc | rfl
    · exact isBareKey_ne hc hd
    · exact hbracket.symm
  match n with
  | 0 => rfl
  | n + 1 =>
    have hblank : isBlank c = false := by
      simp [isBlank, hne (d := ' ') (by decide) (by decide),
        hne (d := '\t') (by decide) (by decide)]
    have hend : newline? (c :: r) = none :=
      newline?_eq_none ⟨hne (by decide) (by decide), hne (by decide) (by decide)⟩
    rw [skipLines, skipBlanks_cons hblank]
    split
    · next heq => exact absurd (List.cons.inj heq).1 (hne (by decide) (by decide))
    · rw [hend]

theorem statements?_of_lines {ss : List Statement} (h : Lines cs ss) {fuel : ℕ}
    (hfuel : cs.length ≤ fuel) : statements? fuel cs = some ss := by
  induction h generalizing fuel with
  | nil => cases fuel <;> rfl
  | blank h ih =>
    rename_i cs ss
    have hskip : skipLines ('\n' :: cs).length ('\n' :: cs) = skipLines cs.length cs := rfl
    have ih := ih (Nat.le_of_succ_le hfuel)
    unfold statements? at ih ⊢
    rw [hskip]
    exact ih
  | line hc hs hlength h ih =>
    obtain ⟨fuel, rfl⟩ := Nat.exists_eq_succ_of_ne_zero
      (show fuel ≠ 0 by rintro rfl; exact absurd hfuel (by simp))
    have ih := @ih fuel (by simp at hfuel; omega)
    rw [statements?, skipLines_statement hc]
    split
    · next heq => cases heq
    · next heq =>
      rw [(List.cons.inj heq).1] at hc
      exact absurd hc (by decide)
    · next hcons =>
      simp [hs, ih]

theorem change_of_not_mem {key : String} {f : Option Entry → Option Entry} {ms : Members}
    (h : ∀ m ∈ ms, m.1 ≠ key) : change key f ms = (f none).map fun e => ms ++ [(key, e)] := by
  induction ms with
  | nil => rfl
  | cons m ms ih =>
    obtain ⟨k, e⟩ := m
    have ih := ih fun m hm => h m (List.mem_cons_of_mem _ hm)
    rw [change, if_neg (h (k, e) List.mem_cons_self), ih]
    cases f none <;> rfl

theorem change_last {key : String} {f : Option Entry → Option Entry} {ms : Members} {e : Entry}
    (h : ∀ m ∈ ms, m.1 ≠ key) :
    change key f (ms ++ [(key, e)]) = (f (some e)).map fun e => ms ++ [(key, e)] := by
  induction ms with
  | nil => simp [change]
  | cons m ms ih =>
    obtain ⟨k, e'⟩ := m
    have ih := ih fun m hm => h m (List.mem_cons_of_mem _ hm)
    rw [List.cons_append, change, if_neg (h (k, e') List.mem_cons_self), ih]
    cases f (some e) <;> rfl

theorem add_header {ms : Members} {header : List String} (h : ∀ m ∈ ms, m.1 ≠ name) :
    Building.add ⟨ms, header⟩ (.tableHeader [name]) =
      some ⟨ms ++ [(name, .table .header [])], [name]⟩ := by
  simp [Building.add, splitKey, descend, openTable, change_of_not_mem h]

theorem add_member {ms xs : Members} (h : ∀ m ∈ ms, m.1 ≠ name) (hx : ∀ m ∈ xs, m.1 ≠ key) :
    Building.add ⟨ms ++ [(name, .table .header xs)], [name]⟩ (.member [key] d) =
      some ⟨ms ++ [(name, .table .header (xs ++ [(key, .value d)]))], [name]⟩ := by
  have hadd : addMember [] key d .header xs = some (xs ++ [(key, .value d)]) := by
    simp [addMember, descend, change_of_not_mem hx]
  simp [Building.add, splitKey, descend, change_last h, hadd]

abbrev Tables := List (String × List (String × Document))

def Tables.statements (ts : Tables) : List Statement :=
  ts.flatMap fun t => .tableHeader [t.1] :: t.2.map fun m => .member [m.1] m.2

def entries (ms : List (String × Document)) : Members :=
  ms.map fun m => (m.1, .value m.2)

structure Tables.Distinct (ts : Tables) : Prop where
  names : (ts.map (·.1)).Nodup
  keys : ∀ t ∈ ts, (t.2.map (·.1)).Nodup

theorem foldlM_members {ms xs : Members} {new : List (String × Document)}
    (h : ∀ m ∈ ms, m.1 ≠ name) (hnew : (new.map (·.1)).Nodup)
    (hx : ∀ m ∈ new, ∀ x ∈ xs, x.1 ≠ m.1) :
    (new.map fun m => Statement.member [m.1] m.2).foldlM Building.add
        ⟨ms ++ [(name, .table .header xs)], [name]⟩ =
      some ⟨ms ++ [(name, .table .header (xs ++ entries new))], [name]⟩ := by
  induction new generalizing xs with
  | nil => simp [entries]
  | cons m new ih =>
    rw [List.map_cons, List.nodup_cons] at hnew
    have hrest : ∀ k ∈ new, ∀ x ∈ xs ++ [(m.1, .value m.2)], x.1 ≠ k.1 := by
      intro k hk x hmem
      rcases List.mem_append.mp hmem with hmem | hmem
      · exact hx k (List.mem_cons_of_mem _ hk) x hmem
      · rw [List.mem_singleton.mp hmem]
        rintro heq
        exact hnew.1 (heq ▸ List.mem_map_of_mem hk)
    rw [List.map_cons, List.foldlM_cons, add_member h (hx m List.mem_cons_self),
      Option.bind_eq_bind, Option.bind_some, ih hnew.2 hrest]
    simp [entries]

theorem foldlM_tables (ms : Members) (header : List String) {ts : Tables} (hts : ts.Distinct)
    (h : ∀ t ∈ ts, ∀ m ∈ ms, m.1 ≠ t.1) :
    ∃ header', ts.statements.foldlM Building.add ⟨ms, header⟩ =
      some ⟨ms ++ ts.map fun t => (t.1, .table .header (entries t.2)), header'⟩ := by
  induction ts generalizing ms header with
  | nil => exact ⟨header, by simp [Tables.statements]⟩
  | cons t ts ih =>
    obtain ⟨hnames, hkeys⟩ := hts
    rw [List.map_cons, List.nodup_cons] at hnames
    have hrest : ∀ u ∈ ts, ∀ m ∈ ms ++ [(t.1, .table .header (entries t.2))], m.1 ≠ u.1 := by
      intro u hu m hm
      rcases List.mem_append.mp hm with hm | hm
      · exact h u (List.mem_cons_of_mem _ hu) m hm
      · rw [List.mem_singleton.mp hm]
        rintro heq
        exact hnames.1 (heq ▸ List.mem_map_of_mem hu)
    have ht : ∀ m ∈ ms, m.1 ≠ t.1 := h t List.mem_cons_self
    obtain ⟨header', hfold⟩ := ih _ [t.1]
      ⟨hnames.2, fun u hu => hkeys u (List.mem_cons_of_mem _ hu)⟩ hrest
    refine ⟨header', ?_⟩
    have hstatements : Tables.statements (t :: ts) =
        .tableHeader [t.1] :: ((t.2.map fun m => Statement.member [m.1] m.2) ++
          Tables.statements ts) := by
      simp [Tables.statements]
    rw [hstatements, List.foldlM_cons, add_header ht, Option.bind_eq_bind, Option.bind_some,
      List.foldlM_append, foldlM_members ht (hkeys t List.mem_cons_self) (by simp),
      Option.bind_eq_bind, Option.bind_some, List.nil_append, hfold]
    simp

theorem memberDocuments_entries (ms : List (String × Document)) :
    memberDocuments (entries ms) = ms := by
  induction ms with
  | nil => rfl
  | cons m ms ih =>
    have hcons : entries (m :: ms) = (m.1, .value m.2) :: entries ms := rfl
    rw [hcons, memberDocuments, ih]
    rfl

theorem memberDocuments_tables (ts : Tables) :
    memberDocuments (ts.map fun t => (t.1, .table .header (entries t.2))) =
      ts.map fun t => (t.1, .table t.2) := by
  induction ts with
  | nil => rfl
  | cons t ts ih =>
    rw [List.map_cons, memberDocuments, ih, Entry.document, memberDocuments_entries]
    rfl

theorem dropByteOrderMark_of_lines {ss : List Statement} (h : Lines cs ss) :
    dropByteOrderMark cs = cs := by
  cases h with
  | nil => rfl
  | blank => rfl
  | line hc =>
    rw [dropByteOrderMark]
    rintro r hr
    rw [(List.cons.inj hr).1] at hc
    exact absurd hc (by decide)

/-- Lines with a header for each table and its members are read as these tables. -/
theorem document?_of_lines {text : String} {ts : Tables} (h : Lines text.toList ts.statements)
    (hts : ts.Distinct) : document? text = some (.table (ts.map fun t => (t.1, .table t.2))) := by
  have hmark := dropByteOrderMark_of_lines h
  obtain ⟨header, hfold⟩ := foldlM_tables [] [] hts (by simp)
  have hstatements := statements?_of_lines h (Nat.le_refl text.toList.length)
  simp only [document?, hmark, hstatements, Option.bind_eq_bind, Option.bind_some, hfold,
    List.nil_append, memberDocuments_tables]

end Engraver.Toml
