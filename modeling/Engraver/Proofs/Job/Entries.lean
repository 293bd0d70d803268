import Engraver.Proofs.Job.Comparing
import Engraver.Proofs.KeyMap

/-! # Settings one by one

An operation has up to ten settings, each with a key of its own. What properties make of a setting
depends on what it was and on the property under its key. So properties may be set all at once or
one by one, in any order, and they are in place when each of them is.
-/

namespace Engraver

namespace Operation

/-- What can be set of an operation; the last four only of raster operations. -/
inductive Setting where
  | speed
  | power
  | dratio
  | dratioCustom
  | acceleration
  | accelerationCustom
  | step
  | direction
  | unidirectional
  | overscan
  deriving DecidableEq, Repr

namespace Setting

def key : Setting → String
  | speed => "speed"
  | power => "power"
  | dratio => "dratio"
  | dratioCustom => "dratio_custom"
  | acceleration => "acceleration"
  | accelerationCustom => "acceleration_custom"
  | step => "raster_step"
  | direction => "raster_direction"
  | unidirectional => "unidirectional"
  | overscan => "overscan"

def Value : Setting → Type
  | speed | power | dratio => Float
  | dratioCustom | accelerationCustom | unidirectional => Bool
  | acceleration | step | overscan => Int
  | direction => RasterDirection

instance : (k : Setting) → BEq k.Value
  | speed | power | dratio => inferInstanceAs (BEq Float)
  | dratioCustom | accelerationCustom | unidirectional => inferInstanceAs (BEq Bool)
  | acceleration | step | overscan => inferInstanceAs (BEq Int)
  | direction => inferInstanceAs (BEq RasterDirection)

def read? (p : Properties) : (k : Setting) → Option k.Value
  | speed => (SettingsUpdate.read p).speed
  | power => (SettingsUpdate.read p).power
  | dratio => (SettingsUpdate.read p).dratio
  | dratioCustom => (SettingsUpdate.read p).dratioCustom
  | acceleration => (SettingsUpdate.read p).acceleration
  | accelerationCustom => (SettingsUpdate.read p).accelerationCustom
  | step => (SettingsUpdate.read p).step
  | direction => (SettingsUpdate.read p).direction
  | unidirectional => (SettingsUpdate.read p).unidirectional
  | overscan => (SettingsUpdate.read p).overscan

theorem readsKey (k : Setting) : ReadsKey k.key fun p => k.read? p := by
  have r := SettingsUpdate.readsKeys
  cases k with
  | speed => exact r.speed
  | power => exact r.power
  | dratio => exact r.dratio
  | dratioCustom => exact r.dratioCustom
  | acceleration => exact r.acceleration
  | accelerationCustom => exact r.accelerationCustom
  | step => exact r.step
  | direction => exact r.direction
  | unidirectional => exact r.unidirectional
  | overscan => exact r.overscan

theorem forall_iff {P : Setting → Prop} :
    (∀ k, P k) ↔ P speed ∧ P power ∧ P dratio ∧ P dratioCustom ∧ P acceleration ∧
      P accelerationCustom ∧ P step ∧ P direction ∧ P unidirectional ∧ P overscan := by
  refine ⟨fun h => ⟨h _, h _, h _, h _, h _, h _, h _, h _, h _, h _⟩, fun h k => ?_⟩
  obtain ⟨_, _, _, _, _, _, _, _, _, _⟩ := h
  cases k <;> assumption

end Setting

open SettingsUpdate

/-- The value of a setting, if the operation has the setting and it was given one. -/
def setting? (o : Operation) : (k : Setting) → Option (Option k.Value)
  | .speed => some (some o.settings.speed)
  | .power => some (some o.settings.power)
  | .dratio => some o.settings.dratio
  | .dratioCustom => some (some o.settings.dratioCustom)
  | .acceleration => some o.settings.acceleration
  | .accelerationCustom => some (some o.settings.accelerationCustom)
  | .step => o.kind.raster?.map fun s => some s.step
  | .direction => o.kind.raster?.map fun s => some s.direction
  | .unidirectional => o.kind.raster?.map fun s => some s.unidirectional
  | .overscan => o.kind.raster?.map fun s => some s.overscan

attribute [ext] LaserSettings RasterSettings

theorem ext_settings {o o' : Operation} (htype : o.type = o'.type)
    (helements : o.elements = o'.elements) (hstatus : o.status = o'.status)
    (h : ∀ k, o.setting? k = o'.setting? k) : o = o' := by
  obtain ⟨kind, settings, elements, status⟩ := o
  obtain ⟨kind', settings', elements', status'⟩ := o'
  have hone : ∀ {α : Type} {a b : α}, some (some a) = some (some b) → a = b := by simp
  have hsettings : settings = settings' :=
    LaserSettings.ext (hone (h .speed)) (hone (h .power)) (hone (h .dratioCustom))
      (Option.some.inj (h .dratio)) (hone (h .accelerationCustom))
      (Option.some.inj (h .acceleration))
  have hkind : kind = kind' := by
    cases kind with
    | raster s =>
      cases kind' with
      | raster s' =>
        exact congrArg OperationKind.raster (RasterSettings.ext (hone (h .step))
          (hone (h .direction)) (hone (h .unidirectional)) (hone (h .overscan)))
      | _ => cases htype
    | _ => cases kind' <;> first | rfl | cases htype
  subst hsettings hkind helements hstatus
  rfl

variable (o : Operation) (p : Properties)

theorem type_setProperties : (o.setProperties p).type = o.type := by
  obtain ⟨kind, _, _, _⟩ := o
  cases kind <;> rfl

theorem setting?_setProperties (k : Setting) :
    (o.setProperties p).setting? k = (o.setting? k).map fun v => (k.read? p).or v := by
  have hor : ∀ {α : Type} (v : Option α) (a : α), some (v.getD a) = v.or (some a) := by
    intro α v a
    cases v <;> rfl
  cases k
  case dratio | acceleration => rfl
  case speed | power | dratioCustom | accelerationCustom => exact congrArg some (hor _ _)
  all_goals
    obtain ⟨kind, _, _, _⟩ := o
    cases kind with
    | raster s => exact congrArg some (hor _ _)
    | _ => rfl

/-- The setting has the new value, if there is one. -/
def InPlace (k : Setting) : Prop :=
  ∀ v ∈ o.setting? k, agreesSet v (k.read? p)

theorem agreesSet_iff {α : Type} [BEq α] (v r : Option α) :
    agreesSet v r ↔ ∀ w ∈ some v, agreesSet w r := by
  simp

theorem agrees_iff {α : Type} [BEq α] (a : α) (r : Option α) :
    agrees a r ↔ ∀ w ∈ some (some a), agreesSet w r := by
  rw [← agreesSet_iff]
  cases r <;> rfl

theorem matchesLaser_iff_inPlace :
    (read p).matchesLaser o.settings ↔ o.InPlace p .speed ∧ o.InPlace p .power ∧
      o.InPlace p .dratio ∧ o.InPlace p .dratioCustom ∧ o.InPlace p .acceleration ∧
      o.InPlace p .accelerationCustom := by
  simp only [matchesLaser, Bool.and_eq_true, and_assoc]
  exact and_congr (agrees_iff _ _) <| and_congr (agrees_iff _ _) <|
    and_congr (agreesSet_iff _ _) <| and_congr (agrees_iff _ _) <|
    and_congr (agreesSet_iff _ _) (agrees_iff _ _)

theorem matchesKind_iff_inPlace :
    (read p).matchesKind o.kind ↔ o.InPlace p .step ∧ o.InPlace p .direction ∧
      o.InPlace p .unidirectional ∧ o.InPlace p .overscan := by
  obtain ⟨kind, _, _, _⟩ := o
  cases kind with
  | raster s =>
    simp only [matchesKind, matchesRaster, Bool.and_eq_true, and_assoc]
    exact and_congr (agrees_iff _ _) <| and_congr (agrees_iff _ _) <|
      and_congr (agrees_iff _ _) (agrees_iff _ _)
  | _ => simp [matchesKind, InPlace, setting?, OperationKind.raster?]

/-- Properties are in place when each setting is. -/
theorem hasSameProperties_iff_inPlace : o.hasSameProperties p ↔ ∀ k, o.InPlace p k := by
  rw [hasSameProperties, Bool.and_eq_true, matchesLaser_iff_inPlace, matchesKind_iff_inPlace,
    Setting.forall_iff]
  simp only [and_assoc]

variable {o p} {q : Properties} {k : Setting}

theorem setting?_setProperties_congr (h : q.get? k.key = p.get? k.key) :
    (o.setProperties q).setting? k = (o.setProperties p).setting? k := by
  rw [setting?_setProperties, setting?_setProperties, k.readsKey.congr h]

theorem setting?_setProperties_of_missing (h : p.get? k.key = none) :
    (o.setProperties p).setting? k = o.setting? k := by
  rw [setting?_setProperties, k.readsKey.missing h]
  exact Option.map_id'

theorem inPlace_congr (h : q.get? k.key = p.get? k.key) : o.InPlace q k ↔ o.InPlace p k := by
  rw [InPlace, InPlace, k.readsKey.congr h]

theorem inPlace_of_missing (h : p.get? k.key = none) : o.InPlace p k := by
  rw [InPlace, k.readsKey.missing h]
  exact fun _ _ => rfl

theorem setProperties_congr (h : ∀ key, q.get? key = p.get? key) :
    o.setProperties q = o.setProperties p :=
  ext_settings (by rw [type_setProperties, type_setProperties]) rfl rfl
    fun _ => setting?_setProperties_congr (h _)

/-- An entry may be set before the others if its key is none of theirs. -/
theorem setProperties_singleton {e : String × Json.Value} (he : q.get? e.1 = none)
    (hp : ∀ key, p.get? key = if key = e.1 then some e.2 else q.get? key) :
    (o.setProperties (.ofList [e])).setProperties q = o.setProperties p := by
  refine ext_settings (by simp only [type_setProperties]) rfl rfl fun k => ?_
  -- the entry has the setting's key and the others do not, or it has another one
  by_cases hk : k.key = e.1
  · rw [setting?_setProperties_of_missing (p := q) (by rw [hk, he])]
    refine setting?_setProperties_congr ?_
    rw [KeyMap.get?_ofList_singleton, hp, if_pos hk, if_pos hk]
  · rw [setting?_setProperties, setting?_setProperties_of_missing, ← setting?_setProperties]
    · exact setting?_setProperties_congr (by rw [hp, if_neg hk])
    · rw [KeyMap.get?_ofList_singleton, if_neg hk]

theorem foldl_setProperties {es : List (String × Json.Value)} (hes : (es.map Prod.fst).Nodup) :
    es.foldl (fun o e => o.setProperties (.ofList [e])) o = o.setProperties (.ofList es) := by
  induction es generalizing o with
  | nil => exact (ext_settings (o.type_setProperties ∅) rfl rfl
      fun _ => setting?_setProperties_of_missing rfl).symm
  | cons e es ih =>
    obtain ⟨he, hrest⟩ := List.nodup_cons.mp hes
    rw [List.foldl_cons, ih hrest]
    refine setProperties_singleton ?_ fun key => ?_
    · rw [KeyMap.get?_ofList_of_nodup hrest]
      exact KeyMap.find?_eq_none_iff.mpr he
    · rw [KeyMap.get?_ofList_of_nodup hes, KeyMap.get?_ofList_of_nodup hrest]
      rfl

theorem hasSameProperties_iff_forall_entry :
    o.hasSameProperties p ↔ ∀ e ∈ p.entries, o.hasSameProperties (.ofList [e]) := by
  simp only [hasSameProperties_iff_inPlace]
  constructor
  · intro h e he k
    by_cases hk : k.key = e.1
    · refine (inPlace_congr ?_).mp (h k)
      rw [KeyMap.get?_ofList_singleton, if_pos hk, hk]
      exact (KeyMap.find?_eq_some_iff p.nodup_keys).mpr he
    · refine inPlace_of_missing ?_
      rw [KeyMap.get?_ofList_singleton, if_neg hk]
  · intro h k
    cases hv : p.get? k.key with
    | none => exact inPlace_of_missing hv
    | some v =>
      refine (inPlace_congr ?_).mp (h (k.key, v) (KeyMap.mem_of_find? hv) k)
      rw [KeyMap.get?_ofList_singleton, if_pos rfl, hv]

/-- Setting properties is setting their entries one by one, in any order. It leaves elements and
status as they are, and a setting changes only with what is under its own key. Properties are in
place exactly when each entry is. -/
theorem setProperties_entries (o : Operation) (p : Properties) :
    (∀ es : List (String × Json.Value), es.Perm p.entries →
      es.foldl (fun o e => o.setProperties (.ofList [e])) o = o.setProperties p) ∧
    ((o.setProperties p).elements = o.elements ∧ (o.setProperties p).status = o.status) ∧
    (∀ k : Setting,
      (∀ q : Properties, q.get? k.key = p.get? k.key →
        (o.setProperties q).setting? k = (o.setProperties p).setting? k) ∧
      (p.get? k.key = none → (o.setProperties p).setting? k = o.setting? k)) ∧
    (o.hasSameProperties p ↔ ∀ e ∈ p.entries, o.hasSameProperties (.ofList [e])) := by
  refine ⟨fun es hes => ?_, ⟨rfl, rfl⟩, fun k => ⟨fun q => setting?_setProperties_congr,
    setting?_setProperties_of_missing⟩, hasSameProperties_iff_forall_entry⟩
  have hkeys : (es.map Prod.fst).Nodup := (hes.map Prod.fst).nodup_iff.mpr p.nodup_keys
  rw [foldl_setProperties hkeys]
  refine setProperties_congr fun key => ?_
  rw [KeyMap.get?_ofList_of_nodup hkeys, KeyMap.find?_perm hes hkeys]
  rfl

theorem setProperties_entries_reversed :
    let o := ofType .raster
    let p : Properties := .ofList [("dratio_custom", .bool true), ("overscan", .text "wide"),
      ("power", .text "full"), ("raster_step", .text "4")]
    let q := p.insert "raster_step" (.text "four")
    p.entries.reverse.Perm p.entries ∧
      p.entries.reverse.foldl (fun o e => o.setProperties (.ofList [e])) o = o.setProperties p ∧
      p.get? "speed" = none ∧ (o.setProperties p).setting? .speed = o.setting? .speed ∧
      q.get? "dratio_custom" = p.get? "dratio_custom" ∧
      (o.setProperties q).setting? .dratioCustom = (o.setProperties p).setting? .dratioCustom ∧
      (o.setProperties p).setting? .dratioCustom = some (some true) ∧
      o.hasSameProperties (.ofList [("raster_step", .text "4")]) = false ∧
      ¬ o.hasSameProperties p := by
  intro o p q
  have hperm : p.entries.reverse.Perm p.entries := List.reverse_perm _
  have hspeed : p.get? "speed" = none := by decide +kernel
  have hcustom : q.get? "dratio_custom" = p.get? "dratio_custom" := by
    exact KeyMap.get?_insert p "raster_step" "dratio_custom" _
  have hstep : o.hasSameProperties (.ofList [("raster_step", .text "4")]) = false := by
    decide +kernel
  have hentry : ("raster_step", Json.Value.text "4") ∈ p.entries := KeyMap.mem_of_find? rfl
  obtain ⟨hset, -, hsettings, hsame⟩ := setProperties_entries o p
  refine ⟨hperm, hset _ hperm, hspeed, (hsettings .speed).2 hspeed, hcustom,
    (hsettings .dratioCustom).1 q hcustom, rfl, hstep, fun h => ?_⟩
  exact absurd (hsame.mp h _ hentry) (by rw [hstep]; decide)

end Operation
end Engraver
