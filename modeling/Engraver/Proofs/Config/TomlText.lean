import Engraver.Proofs.Config.Documents
import Engraver.Proofs.Toml.Statements

/-! # A configuration as TOML

The written sections are read back as tables of the settings, each with the value it had, floats
that are not finite and texts of any kind among them.
-/

namespace Engraver

open Toml

namespace Setting

def document : Setting → Document
  | real x => .float x
  | whole n => .int n
  | text s => .text s

theorem keepsPlain_document : Config.KeepsPlain document :=
  ⟨fun _ => rfl, fun _ => rfl⟩

theorem value?_toToml {v : Setting} {t : String} (h : v.toToml? = some t) {fuel depth : ℕ}
    {r : List Char} :
    value? (fuel + 1) depth (t.toList ++ '\n' :: r) = some (v.document, '\n' :: r) := by
  cases v with
  | real x =>
    cases h
    exact value?_real x
  | whole n =>
    rw [toToml?] at h
    split at h
    · next hn =>
      cases h
      rw [Nat.toString_eq_repr, Nat.toList_repr]
      exact value?_whole hn
    · cases h
  | text s =>
    cases h
    exact value?_quote s

end Setting

namespace Config

variable {name : String} {settings : List (String × Setting)} {t : String}

def tables (sections : List (String × List (String × Setting))) : Tables :=
  sections.map fun s => (s.1, s.2.map fun p => (p.1, p.2.document))

theorem lines_members {lines : List String} {r : List Char} {ss : List Statement}
    (h : (settings.mapM fun p : String × Setting =>
      p.2.toToml?.map fun t => p.1 ++ " = " ++ t ++ "\n") = some lines)
    (hkeys : ∀ p ∈ settings, BareKey p.1) (hr : Lines r ss) :
    Lines (lines.flatMap String.toList ++ r)
      ((settings.map fun p => .member [p.1] p.2.document) ++ ss) := by
  induction settings generalizing lines with
  | nil =>
    cases h
    exact hr
  | cons p settings ih =>
    obtain ⟨k, v⟩ := p
    rw [List.mapM_cons] at h
    simp only [Option.bind_eq_bind, Option.bind_eq_some_iff, Option.map_eq_some_iff] at h
    obtain ⟨line, ⟨t, ht, rfl⟩, rest, hrest, hlines⟩ := h
    cases hlines
    have ih := ih hrest fun p hp => hkeys p (List.mem_cons_of_mem _ hp)
    have hkey : BareKey k := hkeys (k, v) List.mem_cons_self
    have hline : statement? (k.toList ++ ' ' :: '=' :: ' ' ::
        (t.toList ++ '\n' :: (rest.flatMap String.toList ++ r))) =
        some (.member [k] v.document, rest.flatMap String.toList ++ r) :=
      statement?_member hkey fun _ => v.value?_toToml ht
    obtain ⟨c, s, hcons, hc⟩ := hkey.exists_cons
    have htext : ((k ++ " = " ++ t ++ "\n") :: rest).flatMap String.toList ++ r = k.toList ++
        ' ' :: '=' :: ' ' :: (t.toList ++ '\n' :: (rest.flatMap String.toList ++ r)) := by
      simp
    rw [htext]
    rw [hcons, List.cons_append] at hline ⊢
    refine .line (.inl hc) hline ?_ ih
    simp only [List.length_append, List.length_cons]
    omega

theorem lines_section {r : List Char} {ss : List Statement}
    (h : tomlSection? name settings = some t) (hname : BareKey name)
    (hkeys : ∀ p ∈ settings, BareKey p.1) (hr : Lines r ss) :
    Lines (t.toList ++ r)
      (.tableHeader [name] :: ((settings.map fun p => .member [p.1] p.2.document) ++ ss)) := by
  simp only [tomlSection?, Option.bind_eq_bind, Option.bind_eq_some_iff] at h
  obtain ⟨lines, hlines, ht⟩ := h
  cases ht
  have htext : ("[" ++ name ++ "]\n" ++ String.join lines).toList ++ r =
      '[' :: (name.toList ++ ']' :: '\n' :: (lines.flatMap String.toList ++ r)) := by
    simp [String.toList_join]
  rw [htext]
  refine .line (.inr rfl) (statement?_header hname) ?_ (lines_members hlines hkeys hr)
  simp only [List.length_append, List.length_cons]
  omega

/-- Sections whose names and keys need no quotes. -/
def BareNames (sections : List (String × List (String × Setting))) : Prop :=
  ∀ s ∈ sections, BareKey s.1 ∧ ∀ p ∈ s.2, BareKey p.1

theorem lines_sections {sections : List (String × List (String × Setting))} {texts : List String}
    (h : (sections.mapM fun s : String × List (String × Setting) => tomlSection? s.1 s.2) =
      some texts) (hbare : BareNames sections) :
    Lines ("\n".intercalate texts).toList (tables sections).statements := by
  induction sections generalizing texts with
  | nil =>
    cases h
    exact .nil
  | cons s sections ih =>
    obtain ⟨name, settings⟩ := s
    rw [List.mapM_cons] at h
    simp only [Option.bind_eq_bind, Option.bind_eq_some_iff] at h
    obtain ⟨t, ht, rest, hrest, htexts⟩ := h
    cases htexts
    obtain ⟨hname, hkeys⟩ := hbare (name, settings) List.mem_cons_self
    have ih := ih hrest fun s hs => hbare s (List.mem_cons_of_mem _ hs)
    have hstatements : (tables ((name, settings) :: sections)).statements =
        .tableHeader [name] :: ((settings.map fun p => .member [p.1] p.2.document) ++
          (tables sections).statements) := by
      simp [tables, Tables.statements, Function.comp_def]
    rw [hstatements]
    cases rest with
    | nil =>
      have hnil := lines_section ht hname hkeys ih
      simpa using hnil
    | cons u rest =>
      have hcons := lines_section ht hname hkeys (.blank ih)
      simpa [String.intercalate_cons_cons] using hcons

def names : List (String × List String) :=
  [("device", ["bed_width", "bed_height", "scale_x", "scale_y"]),
    ("server", ["bind_address", "port", "read_buffer"]),
    ("emulator", ["flip_x", "flip_y", "banner"])]

theorem map_sections (c : Config) : (c.sections.map fun s => (s.1, s.2.map (·.1))) = names :=
  rfl

theorem bareNames_sections (c : Config) : BareNames c.sections := by
  have hnames : ∀ n ∈ names, BareKey n.1 ∧ ∀ k ∈ n.2, BareKey k := by decide
  rw [← map_sections c] at hnames
  intro s hs
  obtain ⟨hname, hkeys⟩ := hnames _ (List.mem_map_of_mem hs)
  exact ⟨hname, fun p hp => hkeys _ (List.mem_map_of_mem hp)⟩

theorem distinct_sections (c : Config) : (tables c.sections).Distinct := by
  have hnames : (names.map (·.1)).Nodup ∧ ∀ n ∈ names, n.2.Nodup := by decide
  rw [← map_sections c] at hnames
  refine ⟨hnames.1, fun t ht => ?_⟩
  obtain ⟨s, hs, rfl⟩ := List.mem_map.mp ht
  rw [List.map_map]
  exact hnames.2 _ (List.mem_map_of_mem hs)

theorem document?_toToml {c : Config} {text : String} (h : c.toToml? = some text) :
    Toml.document? text = some (c.documentBy Setting.document) := by
  rw [toToml?, Option.map_eq_some_iff] at h
  obtain ⟨texts, htexts, rfl⟩ := h
  have hlines := lines_sections htexts (bareNames_sections c)
  rw [document?_of_lines hlines (distinct_sections c), documentBy, tables, List.map_map]
  rfl

end Config
end Engraver
