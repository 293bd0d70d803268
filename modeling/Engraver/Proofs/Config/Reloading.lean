import Engraver.Config.Files
import Engraver.Proofs.Config.JsonText
import Engraver.Proofs.Config.TomlText
import Engraver.Proofs.Files.Contents

/-! # What is saved is loaded

A saved configuration passed the checks, and the file holds its text. So loading it depends on the
text alone: as TOML every setting is read as it was, as JSON every setting but the floats that are
not finite, for which there is no number. The checks let pass a bed that is not a number, which
differs from itself even when it is read back.
-/

namespace Engraver

/-- Floats are compared as numbers: not-a-number is not the same as itself. -/
def DeviceSettings.same (d e : DeviceSettings) : Bool :=
  d.bedWidth == e.bedWidth && d.bedHeight == e.bedHeight && d.scaleX == e.scaleX &&
    d.scaleY == e.scaleY

namespace Config

def same (c d : Config) : Bool :=
  c.device.same d.device && c.server == d.server && c.emulator.signs.x == d.emulator.signs.x &&
    c.emulator.signs.y == d.emulator.signs.y && c.emulator.banner == d.emulator.banner

variable {c : Config} {files files' : FileTree} {path text : String}

/-- What a saved configuration went through. -/
structure Saved (c : Config) (files : FileTree) (path text : String) (files' : FileTree)
    (format : ConfigFormat) : Prop where
  valid : c.validate = .ok ()
  format_eq : ConfigFormat.ofFileName path = .ok format
  render_eq : c.render format = .ok text
  written : files.writeDeep path text.toUTF8 = (files', true)

theorem exists_of_textFor (h : c.textFor path = .ok text) : ∃ format, c.validate = .ok () ∧
    ConfigFormat.ofFileName path = .ok format ∧ c.render format = .ok text := by
  unfold textFor at h
  cases hv : c.validate with
  | error e =>
    rw [hv] at h
    cases h
  | ok _ =>
    rw [hv] at h
    cases hf : ConfigFormat.ofFileName path with
    | error e =>
      rw [hf] at h
      cases h
    | ok format =>
      rw [hf] at h
      exact ⟨format, rfl, rfl, h⟩

theorem exists_saved (h : c.save files path = (.ok text, files')) :
    ∃ format, Saved c files path text files' format := by
  unfold save at h
  cases htext : c.textFor path with
  | error e =>
    rw [htext] at h
    cases h
  | ok text' =>
    obtain ⟨format, hvalid, hformat, hrender⟩ := exists_of_textFor htext
    rw [htext] at h
    cases hwrite : files.writeDeep path text'.toUTF8 with
    | mk after written =>
      simp only [hwrite] at h
      cases written with
      | false => cases h
      | true =>
        cases h
        exact ⟨format, hvalid, hformat, hrender, hwrite⟩

theorem require_bind_eq_ok_iff {ok : Bool} {key reason : String} {k : Except ConfigError Unit} :
    (require ok key reason >>= fun _ => k) = .ok () ↔ ok = true ∧ k = .ok () := by
  cases ok <;> simp [require, bind, Except.bind]

theorem require_eq_ok_iff {ok : Bool} {key reason : String} :
    require ok key reason = .ok () ↔ ok = true := by
  cases ok <;> simp [require]

theorem isSign_of_validate (h : c.validate = .ok ()) :
    isSign c.emulator.signs.x = true ∧ isSign c.emulator.signs.y = true := by
  simp only [validate, require_bind_eq_ok_iff, require_eq_ok_iff] at h
  exact ⟨h.2.2.2.2.1, h.2.2.2.2.2⟩

theorem fromUTF8?_toUTF8 (s : String) : String.fromUTF8? s.toUTF8 = some s := by
  rw [String.fromUTF8?, String.toUTF8_eq_toByteArray, dif_pos s.isValidUTF8]
  rfl

theorem load_of_saved {format : ConfigFormat} (h : Saved c files path text files' format) :
    load files' path = (parse text format).bind fun d => d.validate.bind fun _ => .ok d := by
  unfold load
  rw [h.format_eq, FileTree.read?_writeDeep h.written, Option.bind_some, fromUTF8?_toUTF8]
  rfl

theorem load_of_parse {format : ConfigFormat} (h : Saved c files path text files' format)
    (hparse : parse text format = .ok c) : load files' path = .ok c := by
  rw [load_of_saved h, hparse]
  change (c.validate.bind fun _ => Except.ok c) = _
  rw [h.valid]
  rfl

-- The text is kept out of sight: comparing what `render` gives with its cases would evaluate it.
theorem render_of_some (h : c.toToml? = some text) : c.render .toml = .ok text :=
  (render.eq_def c .toml).trans (by rw [h])

theorem render_of_none (h : c.toToml? = none) : c.render .toml = .error .outOfRange :=
  (render.eq_def c .toml).trans (by rw [h])

theorem toToml?_of_render (h : c.render .toml = .ok text) : c.toToml? = some text := by
  cases hwritten : c.toToml? with
  | none =>
    rw [render_of_none hwritten] at h
    cases h
  | some s =>
    rw [render_of_some hwritten] at h
    exact congrArg some (Except.ok.inj h)

theorem indented_of_render (h : c.render .json = .ok text) : c.toJson.indented 0 = text :=
  Except.ok.inj ((render.eq_def c .json).symm.trans h)

theorem load_of_toml (h : Saved c files path text files' .toml) : load files' path = .ok c := by
  have hdocument := document?_toToml (toToml?_of_render h.render_eq)
  have hread : ofDocument? (c.documentBy Setting.document) = some c := by
    have hdevice : c.device.readBy (fun x => (Setting.real x).document.float?) = some c.device :=
      readBy_eq_some fun x _ => rfl
    rw [ofDocument?_documentBy Setting.keepsPlain_document rfl rfl, hdevice]
    rfl
  refine load_of_parse h ?_
  rw [parse, hdocument, Option.bind_some, hread]

/-- What is read of a configuration as JSON: nothing, unless the bed is finite. -/
theorem parse_json (h : Saved c files path text files' .json)
    (hreal : ∀ x ∈ c.device.reals, x.isFinite = true → (Json.Number.float x).ReadsBack) :
    parse text .json =
      if ∀ x ∈ c.device.reals, x.isFinite = true then .ok c else .error .badJson := by
  have hsigns := isSign_of_validate h.valid
  have hfinite {x : Float} (hx : isSign x = true) : x.isFinite = true := by
    rcases eq_of_isSign hx with rfl | rfl <;> decide
  have hdocument := document?_toJson hreal hsigns
  rw [indented_of_render h.render_eq] at hdocument
  have hread := ofDocument?_documentBy (c := c) Setting.keepsPlain_toJson
    (by rw [Setting.float?_toJson, if_pos (hfinite hsigns.1)])
    (by rw [Setting.float?_toJson, if_pos (hfinite hsigns.2)])
  rw [parse, hdocument, Option.bind_some, hread]
  split_ifs with hall
  · rw [readBy_eq_some fun x hx => by rw [Setting.float?_toJson, if_pos (hall x hx)]]
    rfl
  · obtain ⟨x, hx, hnot⟩ : ∃ x ∈ c.device.reals, ¬ x.isFinite = true := by
      simpa using hall
    rw [readBy_eq_none hx (by rw [Setting.float?_toJson, if_neg hnot])]
    rfl

theorem load_of_json (h : Saved c files path text files' .json)
    (hreal : ∀ x ∈ c.device.reals, x.isFinite = true → (Json.Number.float x).ReadsBack) :
    load files' path =
      if ∀ x ∈ c.device.reals, x.isFinite = true then .ok c else .error .badJson := by
  have hparse := parse_json h hreal
  split_ifs at hparse ⊢ with hall
  · exact load_of_parse h hparse
  · rw [load_of_saved h, hparse]
    rfl

theorem same_self_iff
    (hsigns : isSign c.emulator.signs.x = true ∧ isSign c.emulator.signs.y = true) :
    c.same c = true ↔ ∀ x ∈ c.device.reals, x ≠ Float.nan := by
  have hsign {x : Float} (hx : isSign x = true) : (x == x) = true := by
    rcases eq_of_isSign hx with rfl | rfl <;> decide
  simp [same, DeviceSettings.same, DeviceSettings.reals, hsign hsigns.1, hsign hsigns.2, and_assoc]

theorem save_of_valid (c : Config) (files : FileTree) (path : String)
    (hvalid : c.validate = .ok ())
    (hformat : ConfigFormat.ofFileName path = .ok .json)
    (hwrite : files.writeDeep path (c.toJson.indented 0).toUTF8 = (files', true)) :
    c.save files path = (.ok (c.toJson.indented 0), files') := by
  have htext : c.textFor path = .ok (c.toJson.indented 0) := by
    rw [textFor, hvalid, hformat]
    exact render.eq_def c .json
  rw [save, htext]
  dsimp only
  rw [hwrite]
  rfl

theorem readsBack_default : ∀ x ∈ default.device.reals, (Json.Number.float x).ReadsBack := by
  have hwidth : (Json.Number.float 320.0).ReadsBack :=
    readsBack_tenths ['3', '2', '0', '.', '0'] false 3200 (by decide +kernel) rfl
      (by decide +kernel)
  have hheight : (Json.Number.float 220.0).ReadsBack :=
    readsBack_tenths ['2', '2', '0', '.', '0'] false 2200 (by decide +kernel) rfl
      (by decide +kernel)
  have hscale : (Json.Number.float 1.0).ReadsBack := readsBack_sign (by decide)
  simp only [DeviceSettings.reals, List.forall_mem_cons, List.not_mem_nil]
  exact ⟨hwidth, hheight, hscale, hscale, by simp⟩

theorem validate_default : default.validate = .ok () := by
  simp only [validate, require_bind_eq_ok_iff, require_eq_ok_iff]
  decide +kernel

/-- Where the finite floats of the bed are read back from JSON as they were written, a saved
configuration is loaded as an equal one exactly when no float of the bed is not-a-number and, as
JSON, each of them is finite. -/
theorem exists_load_same_iff (h : c.save files path = (.ok text, files'))
    (hreal : ConfigFormat.ofFileName path = .ok .json →
      ∀ x ∈ c.device.reals, x.isFinite = true → (Json.Number.float x).ReadsBack) :
    (∃ d, load files' path = .ok d ∧ d.same c = true) ↔ ∀ x ∈ c.device.reals,
      x ≠ Float.nan ∧ (ConfigFormat.ofFileName path = .ok .json → x.isFinite = true) := by
  obtain ⟨format, hsaved⟩ := exists_saved h
  have hsame := same_self_iff (isSign_of_validate hsaved.valid)
  have hformat := hsaved.format_eq
  cases format with
  | toml =>
    rw [load_of_toml hsaved, hformat]
    constructor
    · rintro ⟨d, hd, hsame'⟩ x hx
      cases hd
      exact ⟨hsame.mp hsame' x hx, by rintro ⟨⟩⟩
    · intro hall
      exact ⟨c, rfl, hsame.mpr fun x hx => (hall x hx).1⟩
  | json =>
    rw [load_of_json hsaved (hreal hformat)]
    constructor
    · rintro ⟨d, hd, -⟩ x hx
      split_ifs at hd with hall
      have hfinite := hall x hx
      refine ⟨?_, fun _ => hfinite⟩
      rintro rfl
      exact absurd hfinite (by decide)
    · intro hall
      rw [if_pos fun x hx => (hall x hx).2 hformat]
      exact ⟨c, rfl, hsame.mpr fun x hx => (hall x hx).1⟩

theorem exists_load_same_default : ∃ text files',
    default.save .empty "k40.json" = (.ok text, files') ∧
      ∃ d, load files' "k40.json" = .ok d ∧ d.same default = true := by
  have hsave := save_of_valid default .empty "k40.json" validate_default rfl rfl
  refine ⟨_, _, hsave, (exists_load_same_iff hsave fun _ x hx _ => readsBack_default x hx).mpr ?_⟩
  simp only [DeviceSettings.reals, List.forall_mem_cons, List.not_mem_nil]
  refine ⟨?_, ?_, ?_, ?_, by simp⟩ <;> exact ⟨by decide +kernel, fun _ => by decide +kernel⟩

/-- The default configuration with a bed that has no width in numbers. -/
def unmeasured : Config :=
  { default with device.bedWidth := Float.nan }

/-- It is saved as JSON, and cannot be loaded. -/
theorem load_unmeasured : ∃ text files', unmeasured.save .empty "k40.json" = (.ok text, files') ∧
    load files' "k40.json" = .error .badJson := by
  have hvalid : unmeasured.validate = .ok () := by
    simp only [validate, require_bind_eq_ok_iff, require_eq_ok_iff]
    decide +kernel
  have hsave := save_of_valid unmeasured .empty "k40.json" hvalid rfl rfl
  have hsaved : Saved unmeasured .empty "k40.json" _ _ .json :=
    ⟨hvalid, rfl, render.eq_def _ .json, rfl⟩
  refine ⟨_, _, hsave, ?_⟩
  have hnan : ¬ Float.nan.isFinite = true := by decide
  have hreal : ∀ x ∈ unmeasured.device.reals, x.isFinite = true →
      (Json.Number.float x).ReadsBack := by
    intro x hx hfinite
    rcases List.mem_cons.mp hx with rfl | hx
    · exact absurd hfinite hnan
    · exact readsBack_default x (List.mem_cons_of_mem _ hx)
  rw [load_of_json hsaved hreal, if_neg fun hall => hnan (hall _ List.mem_cons_self)]

end Config
end Engraver
