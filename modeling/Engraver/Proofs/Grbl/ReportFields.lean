import Engraver.Grbl.StatusReport
import Mathlib.Data.List.TakeDrop
import Mathlib.Data.List.TakeWhile

/-! # The fields of a status report

A report is cut at bars into fields, of which the first one is the state and two more are known by
the marker in front of their entries. Reading looks a marker up anywhere in the text, and of the
position it skips what is no number. So it accepts exactly the well-formed reports where each marker
begins the field that holds it and no entry in front of the third number is skipped.
-/

namespace Engraver.StatusReport

deriving instance DecidableEq for StatusReport

def fields (line : String) : List (List Char) :=
  (unbracket (Text.trim line.toList)).splitOnP (· = '|')

def positionMarker : List Char := "MPos:".toList

def speedMarker : List Char := "FS:".toList

def number? (entry : List Char) : Option Float :=
  Numeral.float? (Text.trim entry)

def named? (marker field : List Char) : Option (List (List Char)) :=
  if marker <+: field then some (entries (field.drop marker.length)) else none

def position3? : List (List Char) → Option (Float × Float × Float)
  | x :: y :: z :: _ => do some (← number? x, ← number? y, ← number? z)
  | _ => none

def feedPower? : List (List Char) → Option (Float × Int)
  | f :: p :: _ => do some (← number? f, ← Numeral.int64? (Text.trim p))
  | _ => none

/-- What the first field of a name says that can be read. -/
def firstOf? {α : Type} (marker : List Char) (read : List (List Char) → Option α)
    (fs : List (List Char)) : Option α :=
  fs.findSome? fun f => (named? marker f).bind read

/-- The line is a report: its state is not blank, and the first field of either name that can be
read says position, feed and power. -/
structure WellFormed (line : String) (r : StatusReport) : Prop where
  state : Text.trim ((fields line).headD []) = r.state.toList
  state_ne : r.state ≠ ""
  position : firstOf? positionMarker position3? (fields line) = some (r.x, r.y, r.z)
  speed : firstOf? speedMarker feedPower? (fields line) = some (r.feed, r.power)

/-- A marker begins every field that holds it, and of two such fields the first can be read. -/
structure Marks {α : Type} (marker : List Char) (read : List (List Char) → Option α)
    (fs : List (List Char)) : Prop where
  anchored : ∀ f ∈ fs, marker <:+: f → marker <+: f
  first : fs.Pairwise fun f g => marker <+: f → marker <+: g → ((named? marker f).bind read).isSome

/-- Nothing in the line is misread: markers begin their fields, and an entry of the position that is
no number stands behind the third one or among fewer than three numbers. -/
structure Plain (line : String) : Prop where
  position : Marks positionMarker position3? (fields line)
  speed : Marks speedMarker feedPower? (fields line)
  aligned : ∀ f ∈ fields line, ∀ es ∈ named? positionMarker f,
    (∀ e ∈ es.take 3, (number? e).isSome) ∨ (es.filterMap number?).length < 3

section

variable {marker : List Char}

theorem behind?_cons_of_begins {c : Char} {cs : List Char} (h : marker <+: c :: cs) :
    behind? marker (c :: cs) = some ((c :: cs).drop marker.length) :=
  if_pos (List.isPrefixOf_iff_prefix.mpr h)

theorem behind?_cons_of_not_begins {c : Char} {cs : List Char} (h : ¬ marker <+: c :: cs) :
    behind? marker (c :: cs) = behind? marker cs :=
  if_neg (mt List.isPrefixOf_iff_prefix.mp h)

theorem behind?_nil (hne : marker ≠ []) : behind? marker [] = none :=
  if_neg (by simpa using hne)

theorem behind?_of_not_infix (hne : marker ≠ []) {cs : List Char} (h : ¬ marker <:+: cs) :
    behind? marker cs = none := by
  induction cs with
  | nil => exact behind?_nil hne
  | cons c cs ih =>
    rw [behind?_cons_of_not_begins fun hp => h hp.isInfix]
    exact ih fun hi => h (List.infix_cons hi)

theorem behind?_of_begins (hne : marker ≠ []) {cs : List Char} (h : marker <+: cs) :
    behind? marker cs = some (cs.drop marker.length) := by
  cases cs with
  | nil => exact absurd (List.prefix_nil.mp h) hne
  | cons c cs => exact behind?_cons_of_begins h

theorem exists_splitOnP_eq (cs : List Char) :
    ∃ fs, cs.splitOnP (· = '|') = cs.takeWhile (· ≠ '|') :: fs := by
  have hcut := List.takeWhile_append_dropWhile (p := (· ≠ '|')) (l := cs)
  have hfield : ∀ c ∈ cs.takeWhile (· ≠ '|'), decide (c = '|') = false := fun c hc => by
    simpa using List.mem_takeWhile_imp hc
  cases hrest : cs.dropWhile (· ≠ '|') with
  | nil =>
    rw [hrest, List.append_nil] at hcut
    rw [hcut] at hfield ⊢
    exact ⟨[], List.splitOnP_eq_singleton hfield⟩
  | cons d r =>
    have hd : decide (d = '|') = true := by
      have hn := List.head?_dropWhile_not (· ≠ '|') cs
      rw [hrest] at hn
      simpa using hn
    rw [hrest] at hcut
    refine ⟨r.splitOnP (· = '|'), ?_⟩
    conv_lhs => rw [← hcut]
    exact List.splitOnP_append_cons_of_forall_mem hfield d hd r

/-- A marker without a bar is found in the first field that holds it. -/
theorem map_behind?_eq (hne : marker ≠ []) (hbar : '|' ∉ marker) (cs : List Char) :
    (behind? marker cs).map (·.takeWhile (· ≠ '|')) =
      (cs.splitOnP (· = '|')).findSome? (behind? marker) := by
  have hmarker : ∀ c ∈ marker, decide (c ≠ '|') = true := fun c hc =>
    decide_eq_true fun he => hbar (he ▸ hc)
  induction cs with
  | nil => simp [behind?_nil hne]
  | cons c cs ih =>
    obtain ⟨fs, hfs⟩ := exists_splitOnP_eq cs
    rw [List.splitOnP_cons_eq_if_modifyHead]
    rw [hfs] at ih ⊢
    by_cases hc : c = '|'
    · subst hc
      have hprefix : ¬ marker <+: '|' :: cs := by
        rintro ⟨t, ht⟩
        cases marker with
        | nil => exact hne rfl
        | cons d marker => exact hbar (List.mem_cons.mpr (.inl (List.cons.inj ht).1.symm))
      rw [behind?_cons_of_not_begins hprefix, ih, if_pos (by simp)]
      exact (List.findSome?_cons_of_isNone (l := _ :: fs) (by rw [behind?_nil hne]; simp)).symm
    · rw [if_neg (by simpa using hc), List.modifyHead_cons]
      have hfield : c :: cs.takeWhile (· ≠ '|') = (c :: cs).takeWhile (· ≠ '|') :=
        (List.takeWhile_cons_of_pos (by simpa using hc)).symm
      by_cases hprefix : marker <+: c :: cs
      · obtain ⟨t, ht⟩ := hprefix
        have hfield' : c :: cs.takeWhile (· ≠ '|') = marker ++ t.takeWhile (· ≠ '|') := by
          rw [hfield, ← ht, List.takeWhile_append_of_pos hmarker]
        rw [List.findSome?_cons, behind?_cons_of_begins ⟨t, ht⟩, ← ht,
          behind?_cons_of_begins (by rw [hfield']; exact List.prefix_append _ _), hfield',
          Option.map_some, List.drop_left, List.drop_left]
      · have hprefix' : ¬ marker <+: c :: cs.takeWhile (· ≠ '|') := fun hp =>
          hprefix (hp.trans (hfield ▸ List.takeWhile_prefix _))
        rw [behind?_cons_of_not_begins hprefix, ih, List.findSome?_cons, List.findSome?_cons,
          behind?_cons_of_not_begins hprefix']

end

def firstNumbers? (es : List (List Char)) : Option (Float × Float × Float) :=
  match es.filterMap number? with
  | x :: y :: z :: _ => some (x, y, z)
  | _ => none

def foundOf? {α : Type} (marker : List Char) (read : List (List Char) → Option α)
    (fs : List (List Char)) : Option α :=
  (fs.findSome? (behind? marker)).bind fun cs => read (entries cs)

theorem position?_eq_foundOf? (body : List Char) :
    position? body = foundOf? positionMarker firstNumbers? (body.splitOnP (· = '|')) := by
  rw [foundOf?, ← map_behind?_eq (by decide) (by decide)]
  rfl

theorem speed?_eq_foundOf? (body : List Char) :
    speed? body = foundOf? speedMarker feedPower? (body.splitOnP (· = '|')) := by
  rw [foundOf?, ← map_behind?_eq (by decide) (by decide)]
  rfl

def ofParts? (state : List Char) (position? : Option (Float × Float × Float))
    (speed? : Option (Float × Int)) : Option StatusReport :=
  if state.isEmpty then none
  else do
    let (x, y, z) ← position?
    let (feed, power) ← speed?
    some ⟨String.ofList state, x, y, z, feed, power⟩

theorem parse?_eq_ofParts? (line : String) :
    parse? line = ofParts? (Text.trim ((fields line).headD []))
      (foundOf? positionMarker firstNumbers? (fields line))
      (foundOf? speedMarker feedPower? (fields line)) := by
  obtain ⟨fs, hfs⟩ := exists_splitOnP_eq (unbracket (Text.trim line.toList))
  have hhead : (fields line).headD [] =
      (unbracket (Text.trim line.toList)).takeWhile (· ≠ '|') := by
    rw [fields, hfs]
    rfl
  rw [hhead, fields, ← position?_eq_foundOf?, ← speed?_eq_foundOf?]
  rfl

theorem ofParts?_eq_some_iff {state : List Char} {p? : Option (Float × Float × Float)}
    {s? : Option (Float × Int)} {r : StatusReport} :
    ofParts? state p? s? = some r ↔
      state = r.state.toList ∧ r.state ≠ "" ∧ p? = some (r.x, r.y, r.z) ∧
        s? = some (r.feed, r.power) := by
  obtain ⟨name, x, y, z, feed, power⟩ := r
  constructor
  · intro h
    unfold ofParts? at h
    split at h
    · cases h
    · next hne =>
      match p?, s? with
      | some (x, y, z), some (feed, power) =>
        cases h
        have hempty : String.ofList state = "" → state = [] := fun he =>
          String.ofList_inj.mp (he.trans (by rfl))
        exact ⟨String.toList_ofList.symm, fun he => hne (by rw [hempty he]; rfl), rfl, rfl⟩
  · rintro ⟨rfl, hne, rfl, rfl⟩
    have he : name.toList.isEmpty = false := by
      rw [List.isEmpty_eq_false_iff]
      exact fun h => hne (String.toList_inj.mp h)
    simp [ofParts?, he]

theorem wellFormed_iff_ofParts? {line : String} {r : StatusReport} :
    WellFormed line r ↔ ofParts? (Text.trim ((fields line).headD []))
      (firstOf? positionMarker position3? (fields line))
      (firstOf? speedMarker feedPower? (fields line)) = some r := by
  rw [ofParts?_eq_some_iff]
  exact ⟨fun h => ⟨h.state, h.state_ne, h.position, h.speed⟩, fun ⟨a, b, c, d⟩ => ⟨a, b, c, d⟩⟩

theorem firstNumbers?_eq_none {es : List (List Char)} (h : (es.filterMap number?).length < 3) :
    firstNumbers? es = none := by
  unfold firstNumbers?
  split
  · next heq =>
    rw [heq, List.length_cons, List.length_cons, List.length_cons] at h
    omega
  · rfl

theorem firstNumbers?_eq_position3? {es : List (List Char)}
    (h : (∀ e ∈ es.take 3, (number? e).isSome) ∨ (es.filterMap number?).length < 3) :
    firstNumbers? es = position3? es := by
  match es with
  | [] | [_] | [_, _] =>
    exact firstNumbers?_eq_none ((List.length_filterMap_le ..).trans_lt (by simp))
  | x :: y :: z :: es =>
    cases hx : number? x <;> cases hy : number? y <;> cases hz : number? z
    case some.some.some => simp [firstNumbers?, position3?, hx, hy, hz]
    all_goals
      have hshort : ((x :: y :: z :: es).filterMap number?).length < 3 :=
        h.resolve_left fun hall => by simp [hx, hy, hz] at hall
      rw [firstNumbers?_eq_none hshort]
      simp [position3?, hx, hy, hz]

variable {α : Type} {marker : List Char} {read found : List (List Char) → Option α}

theorem Marks.tail {f : List Char} {fs : List (List Char)} (h : Marks marker read (f :: fs)) :
    Marks marker read fs :=
  ⟨fun g hg => h.anchored g (List.mem_cons_of_mem _ hg), (List.pairwise_cons.mp h.first).2⟩

theorem firstOf?_eq_none {fs : List (List Char)} (h : ∀ f ∈ fs, ¬ marker <+: f) :
    firstOf? marker read fs = none :=
  List.findSome?_eq_none_iff.mpr fun f hf => by rw [named?, if_neg (h f hf), Option.bind_none]

/-- Where markers begin their fields and the first field of a name is the one that can be read,
looking for the marker finds that field. -/
theorem foundOf?_eq_firstOf? (hne : marker ≠ []) {fs : List (List Char)}
    (hm : Marks marker read fs)
    (hread : ∀ f ∈ fs, ∀ es ∈ named? marker f, found es = read es) :
    foundOf? marker found fs = firstOf? marker read fs := by
  induction fs with
  | nil => rfl
  | cons f fs ih =>
    by_cases hp : marker <+: f
    · have hnamed : named? marker f = some (entries (f.drop marker.length)) := if_pos hp
      have hfound : foundOf? marker found (f :: fs) = read (entries (f.drop marker.length)) := by
        rw [foundOf?, List.findSome?_cons, behind?_of_begins hne hp]
        exact hread f List.mem_cons_self _ hnamed
      rw [hfound, firstOf?, List.findSome?_cons, hnamed, Option.bind_some]
      cases hr : read (entries (f.drop marker.length)) with
      | some a => rfl
      | none =>
        refine (firstOf?_eq_none fun g hg hpg => ?_).symm
        have hsome := (List.pairwise_cons.mp hm.first).1 g hg hp hpg
        rw [hnamed, Option.bind_some, hr] at hsome
        cases hsome
    · have hinfix : ¬ marker <:+: f := mt (hm.anchored f List.mem_cons_self) hp
      have ih := ih hm.tail fun g hg => hread g (List.mem_cons_of_mem _ hg)
      rw [foundOf?, List.findSome?_cons, behind?_of_not_infix hne hinfix, firstOf?,
        List.findSome?_cons, named?, if_neg hp]
      exact ih

theorem foundOf?_insert (hne : marker ≠ []) {f : List Char} (hf : ¬ marker <:+: f)
    (before after : List (List Char)) :
    foundOf? marker found (before ++ f :: after) = foundOf? marker found (before ++ after) := by
  rw [foundOf?, foundOf?, List.findSome?_append, List.findSome?_append, List.findSome?_cons,
    behind?_of_not_infix hne hf]

/-- A line in which nothing is misread is accepted exactly if it is a well-formed report, with the
values of that report. A field behind the first one that holds neither marker changes nothing in
any line. -/
theorem reads_wellFormed (line : String) :
    (Plain line → ∀ r, parse? line = some r ↔ WellFormed line r) ∧
      ∀ line' before f after, before ≠ [] → fields line = before ++ after →
        fields line' = before ++ f :: after → ¬ positionMarker <:+: f → ¬ speedMarker <:+: f →
        parse? line' = parse? line := by
  constructor
  · intro h r
    rw [wellFormed_iff_ofParts?, parse?_eq_ofParts?,
      foundOf?_eq_firstOf? (by decide) h.position
        fun f hf es hes => firstNumbers?_eq_position3? (h.aligned f hf es hes),
      foundOf?_eq_firstOf? (by decide) h.speed fun _ _ _ _ => rfl]
  · intro line' before f after hne hline hline' hposition hspeed
    have hhead : (before ++ f :: after).headD [] = (before ++ after).headD [] := by
      cases before with
      | nil => exact absurd rfl hne
      | cons _ _ => rfl
    rw [parse?_eq_ofParts?, parse?_eq_ofParts?, hline, hline',
      foundOf?_insert (by decide) hposition, foundOf?_insert (by decide) hspeed, hhead]

theorem reads_wellFormed_pin :
    (∀ r, parse? "<Idle|MPos:1,-2,3.5,?|FS:4,5>" = some r ↔
      WellFormed "<Idle|MPos:1,-2,3.5,?|FS:4,5>" r) ∧
    parse? "<Idle|MPos:1,-2,3.5,?|Pn:P|FS:4,5>" = parse? "<Idle|MPos:1,-2,3.5,?|FS:4,5>" := by
  have hfields : fields "<Idle|MPos:1,-2,3.5,?|FS:4,5>" =
      ["Idle".toList, "MPos:1,-2,3.5,?".toList] ++ ["FS:4,5".toList] := by decide +kernel
  have hplain : Plain "<Idle|MPos:1,-2,3.5,?|FS:4,5>" := by
    constructor <;> rw [hfields]
    · exact ⟨by decide +kernel, by decide +kernel⟩
    · exact ⟨by decide +kernel, by decide +kernel⟩
    · decide +kernel
  have hread := reads_wellFormed "<Idle|MPos:1,-2,3.5,?|FS:4,5>"
  exact ⟨hread.1 hplain, hread.2 _ _ "Pn:P".toList _ (by decide) hfields (by decide +kernel)
    (by decide +kernel) (by decide +kernel)⟩

/-- A garbled coordinate is skipped and the later ones move up, and a name that ends like a marker
is taken for it. -/
theorem reads_misread :
    (parse? "<Idle|MPos:x,1,2,3|FS:4,5>" = some ⟨"Idle", 1.0, 2.0, 3.0, 4.0, 5⟩ ∧
      ∀ r, ¬ WellFormed "<Idle|MPos:x,1,2,3|FS:4,5>" r) ∧
    parse? "<Idle|WMPos:7,8,9|MPos:1,2,3|FS:4,5>" ≠ parse? "<Idle|MPos:1,2,3|FS:4,5>" := by
  have hnone : ofParts? (Text.trim ((fields "<Idle|MPos:x,1,2,3|FS:4,5>").headD []))
      (firstOf? positionMarker position3? (fields "<Idle|MPos:x,1,2,3|FS:4,5>"))
      (firstOf? speedMarker feedPower? (fields "<Idle|MPos:x,1,2,3|FS:4,5>")) = none := by
    decide +kernel
  refine ⟨⟨by decide +kernel, fun r hr => ?_⟩, by decide +kernel⟩
  rw [wellFormed_iff_ofParts?, hnone] at hr
  cases hr

end Engraver.StatusReport
