import Mathlib
import Engraver.Job.Operation

/-! # Settings compared with properties

Comparing an operation with properties tells whether setting them would leave each setting as it is.
The comparison and the setting read a key the same way, so a value that one of them leaves out is
left out by the other. Setting the same properties twice is setting them once, and each of them is
in place then, but for a float that is not a number: that one differs from itself.
-/

namespace Engraver

namespace SettingsUpdate

section Fields

variable {α : Type} [BEq α]

theorem agrees_getD (field : α) (v : Option α) :
    agrees (v.getD field) v = v.all fun a => a == a := by
  cases v <;> rfl

theorem agreesSet_or (field v : Option α) : agreesSet (v.or field) v = v.all fun a => a == a := by
  cases v <;> rfl

theorem all_beq_self [ReflBEq α] (v : Option α) : (v.all fun a => a == a) = true := by
  cases v with
  | none => rfl
  | some a => exact BEq.rfl

end Fields

theorem all_beq_self_iff (v : Option Float) :
    (v.all fun a => a == a) = true ↔ v ≠ some Float.nan := by
  cases v <;> simp

variable (u : SettingsUpdate)

theorem applyLaser_applyLaser (s : LaserSettings) :
    u.applyLaser (u.applyLaser s) = u.applyLaser s := by
  simp only [applyLaser, ← Option.getD_or, ← Option.or_assoc, Option.or_self]

theorem applyKind_applyKind (k : OperationKind) : u.applyKind (u.applyKind k) = u.applyKind k := by
  cases k with
  | raster s => simp only [applyKind, applyRaster, ← Option.getD_or, Option.or_self]
  | _ => rfl

/-- Only the floats can differ from what was applied, and only if they are not numbers. -/
theorem matchesLaser_applyLaser_iff (s : LaserSettings) :
    u.matchesLaser (u.applyLaser s) ↔
      u.speed ≠ some Float.nan ∧ u.power ≠ some Float.nan ∧ u.dratio ≠ some Float.nan := by
  simp only [matchesLaser, applyLaser, agrees_getD, agreesSet_or, Bool.and_eq_true,
    all_beq_self_iff, all_beq_self, and_true, and_assoc]

theorem matchesKind_applyKind (k : OperationKind) : u.matchesKind (u.applyKind k) := by
  cases k with
  | raster s =>
    simp only [applyKind, matchesKind, matchesRaster, applyRaster, agrees_getD, all_beq_self,
      Bool.and_self]
  | _ => rfl

end SettingsUpdate

namespace Operation

def floatKeys : List String := ["speed", "power", "dratio"]

/-- Setting the same properties again changes nothing. Compared with them, the operation has them
in place exactly when none of the floats among them is read as not-a-number. -/
theorem setProperties_settles_iff (o : Operation) (p : Properties) :
    (o.setProperties p).setProperties p = o.setProperties p ∧
      ((o.setProperties p).hasSameProperties p ↔
        ∀ key ∈ floatKeys, p.float? key ≠ some Float.nan) := by
  let u := SettingsUpdate.read p
  have hset : (o.setProperties p).hasSameProperties p =
      (u.matchesLaser (u.applyLaser o.settings) && u.matchesKind (u.applyKind o.kind)) := rfl
  constructor
  · unfold setProperties
    dsimp only
    rw [SettingsUpdate.applyLaser_applyLaser, SettingsUpdate.applyKind_applyKind]
  · rw [hset, u.matchesKind_applyKind, Bool.and_true, u.matchesLaser_applyLaser_iff]
    simp [u, SettingsUpdate.read, floatKeys]

/-- The speed `nan` is set, and setting it again changes nothing, but it is not found in place. -/
theorem hasSameProperties_setProperties_nan :
    let p : Properties := .ofList [("speed", .text "nan")]
    let o := (ofType .cut).setProperties p
    o.settings.speed = Float.nan ∧ o.setProperties p = o ∧ o.hasSameProperties p = false := by
  refine ⟨?_, rfl, ?_⟩ <;> decide +kernel

end Operation

namespace LaserSettings

/-- Each setting is the same by value: zero has either sign, not-a-number differs from itself. -/
def same (s t : LaserSettings) : Bool :=
  s.speed == t.speed && s.power == t.power && s.dratio == t.dratio
    && s.dratioCustom == t.dratioCustom && s.acceleration == t.acceleration
    && s.accelerationCustom == t.accelerationCustom

structure Numeric (s : LaserSettings) : Prop where
  speed : s.speed ≠ Float.nan
  power : s.power ≠ Float.nan
  dratio : s.dratio ≠ some Float.nan

end LaserSettings

/-- A reading of properties that looks at one key only and finds nothing without it. -/
structure ReadsKey {β : Type} (key : String) (read : Properties → Option β) : Prop where
  congr : ∀ {p q : Properties}, p.get? key = q.get? key → read p = read q
  missing : ∀ {p : Properties}, p.get? key = none → read p = none

namespace ReadsKey

variable {β γ : Type} {key : String} {read : Properties → Option β}

theorem float (key : String) : ReadsKey key (·.float? key) where
  congr h := by simp only [Properties.float?, Properties.float, Properties.require, h]
  missing h := by simp only [Properties.float?, Properties.float, Properties.require, h]; rfl

theorem int (key : String) : ReadsKey key (·.int? key) where
  congr h := by simp only [Properties.int?, Properties.int, Properties.require, h]
  missing h := by simp only [Properties.int?, Properties.int, Properties.require, h]; rfl

theorem flag (key : String) : ReadsKey key (·.flag? key) where
  congr h := by simp only [Properties.flag?, Properties.flag, Properties.require, h]
  missing h := by simp only [Properties.flag?, Properties.flag, Properties.require, h]; rfl

theorem bind (h : ReadsKey key read) (f : β → Option γ) :
    ReadsKey key fun p => (read p).bind f where
  congr hpq := by rw [h.congr hpq]
  missing hp := by rw [h.missing hp]; rfl

theorem filter (h : ReadsKey key read) (f : β → Bool) :
    ReadsKey key fun p => (read p).filter f where
  congr hpq := by rw [h.congr hpq]
  missing hp := by rw [h.missing hp]; rfl

/-- Another key, or a value that is not read, may as well be absent. -/
theorem erase (h : ReadsKey key read) {p : Properties} {k : String} (hk : k = key → read p = none) :
    read (p.erase k) = read p := by
  by_cases he : key = k
  · rw [hk he.symm]
    exact h.missing (by rw [KeyMap.get?_erase, if_pos he])
  · exact h.congr (by rw [KeyMap.get?_erase, if_neg he])

theorem insert (h : ReadsKey key read) {k : String} (hk : key ≠ k) (p : Properties)
    (v : Json.Value) : read (p.insert k v) = read p :=
  h.congr (by rw [KeyMap.get?_insert, if_neg hk])

end ReadsKey

namespace SettingsUpdate

section Fields

variable {α : Type} [BEq α] [PartialEquivBEq α]

theorem agrees_eq {field : α} (h : field == field) (v : Option α) :
    agrees field v = (v.getD field == field) := by
  cases v with
  | none => exact h.symm
  | some a => exact BEq.comm

theorem agreesSet_eq {field : Option α} (h : field == field) (v : Option α) :
    agreesSet field v = (v.or field == field) := by
  cases v with
  | none => exact h.symm
  | some a =>
    cases field with
    | none => rfl
    | some b => exact BEq.comm

end Fields

variable (u : SettingsUpdate)

theorem matchesLaser_eq {s : LaserSettings} (h : s.Numeric) :
    u.matchesLaser s = (u.applyLaser s).same s := by
  have hspeed : s.speed == s.speed := by simpa using h.speed
  have hpower : s.power == s.power := by simpa using h.power
  have hdratio : s.dratio == s.dratio := by
    have hn := h.dratio
    cases hd : s.dratio <;> simp_all
  simp only [matchesLaser, applyLaser, LaserSettings.same, agrees_eq hspeed, agrees_eq hpower,
    agreesSet_eq hdratio, agrees_eq BEq.rfl, agreesSet_eq BEq.rfl]

theorem matchesKind_iff (k : OperationKind) : u.matchesKind k ↔ u.applyKind k = k := by
  cases k with
  | raster s =>
    obtain ⟨step, direction, unidirectional, overscan⟩ := s
    simp [matchesKind, matchesRaster, applyKind, applyRaster, agrees_eq BEq.rfl, and_assoc]
  | _ => simp [matchesKind, applyKind]

structure ReadsKeys : Prop where
  speed : ReadsKey "speed" fun p => (read p).speed
  power : ReadsKey "power" fun p => (read p).power
  dratio : ReadsKey "dratio" fun p => (read p).dratio
  dratioCustom : ReadsKey "dratio_custom" fun p => (read p).dratioCustom
  acceleration : ReadsKey "acceleration" fun p => (read p).acceleration
  accelerationCustom : ReadsKey "acceleration_custom" fun p => (read p).accelerationCustom
  step : ReadsKey "raster_step" fun p => (read p).step
  direction : ReadsKey "raster_direction" fun p => (read p).direction
  unidirectional : ReadsKey "unidirectional" fun p => (read p).unidirectional
  overscan : ReadsKey "overscan" fun p => (read p).overscan

theorem readsKey_int32 (key : String) : ReadsKey key (int32? · key) :=
  (ReadsKey.int key).filter _

theorem readsKeys : ReadsKeys where
  speed := .float _
  power := .float _
  dratio := .float _
  dratioCustom := .flag _
  acceleration := readsKey_int32 _
  accelerationCustom := .flag _
  step := (readsKey_int32 _).filter _
  direction := (ReadsKey.int _).bind _
  unidirectional := .flag _
  overscan :=
    { congr := fun h => by
        have hvalue := (readsKey_int32 "overscan").congr h
        have hcontains := congrArg Option.isSome h
        dsimp only [read]
        exact if_congr (by rw [KeyMap.contains, KeyMap.contains, hcontains]) (by rw [hvalue]) rfl
      missing := fun h => by simp [read, KeyMap.contains, h] }

end SettingsUpdate

namespace Operation

def flagKeys : List String := ["dratio_custom", "acceleration_custom", "unidirectional"]

def rasterKeys : List String := ["raster_step", "raster_direction", "unidirectional", "overscan"]

/-- The value under a key can be read as the setting of that name and is in its range. An overscan
counts whatever it is. -/
def readable (p : Properties) (key : String) : Bool :=
  if floatKeys.contains key then (p.float? key).isSome
  else if flagKeys.contains key then (p.flag? key).isSome
  else if key = "acceleration" then (p.int? key).any IntRange.int32.contains
  else if key = "raster_step" then
    (p.int? key).any fun n => IntRange.int32.contains n && 1 ≤ n
  else if key = "raster_direction" then
    (p.int? key).any fun n => (RasterDirection.ofIndex? n).isSome
  else key = "overscan" && p.contains key

/-- The operation takes a setting from the value under a key. -/
def takes (o : Operation) (p : Properties) (key : String) : Bool :=
  readable p key && (!rasterKeys.contains key || o.type = .raster)

end Operation

namespace SettingsUpdate

open Operation

variable {p : Properties} {key : String}

attribute [ext] SettingsUpdate

theorem read_erase (h : readable p key = false) : read (p.erase key) = read p := by
  have r := readsKeys
  refine SettingsUpdate.ext (r.speed.erase ?_) (r.power.erase ?_) (r.dratio.erase ?_)
    (r.dratioCustom.erase ?_) (r.acceleration.erase ?_) (r.accelerationCustom.erase ?_)
    (r.step.erase ?_) (r.direction.erase ?_) (r.unidirectional.erase ?_) (r.overscan.erase ?_)
  all_goals
    rintro rfl
    simpa [readable, floatKeys, flagKeys, read, int32?, Option.any_eq_false] using h

theorem overscan_read (hc : p.contains "overscan") (hn : int32? p "overscan" = none) :
    (read p).overscan = some 20 := by
  simp [read, hc, hn, RasterSettings.defaultOverscan]

theorem read_erase_overscan (p : Properties) :
    read (p.erase "overscan") = { read p with overscan := none } := by
  have r := readsKeys
  have hmissing : (p.erase "overscan").get? "overscan" = none := by
    rw [KeyMap.get?_erase, if_pos rfl]
  refine SettingsUpdate.ext (r.speed.erase ?_) (r.power.erase ?_) (r.dratio.erase ?_)
    (r.dratioCustom.erase ?_) (r.acceleration.erase ?_) (r.accelerationCustom.erase ?_)
    (r.step.erase ?_) (r.direction.erase ?_) (r.unidirectional.erase ?_)
    (r.overscan.missing hmissing)
  all_goals
    intro he
    exact absurd he (by decide)

theorem read_insert_overscan (hc : p.contains "overscan") (hn : int32? p "overscan" = none) :
    read (p.insert "overscan" (.int 20)) = read p := by
  have r := readsKeys
  have hget : (p.insert "overscan" (.int 20)).get? "overscan" = some (.int 20) := by
    rw [KeyMap.get?_insert, if_pos rfl]
  have hvalue : int32? (p.insert "overscan" (.int 20)) "overscan" = some 20 := by
    simp only [int32?, Properties.int?, Properties.int, Properties.require, hget]
    decide
  refine SettingsUpdate.ext (r.speed.insert ?_ _ _) (r.power.insert ?_ _ _) (r.dratio.insert ?_ _ _)
    (r.dratioCustom.insert ?_ _ _) (r.acceleration.insert ?_ _ _)
    (r.accelerationCustom.insert ?_ _ _) (r.step.insert ?_ _ _) (r.direction.insert ?_ _ _)
    (r.unidirectional.insert ?_ _ _) ?overscan
  case overscan =>
    have hcontains : (p.insert "overscan" (.int 20)).contains "overscan" := by
      rw [KeyMap.contains, hget]
      rfl
    rw [overscan_read hc hn]
    simp [read, hcontains, hvalue]
  all_goals decide

theorem applyLaser_erase (h : key ∈ rasterKeys) (s : LaserSettings) :
    (read (p.erase key)).applyLaser s = (read p).applyLaser s := by
  have r := readsKeys
  have hne : ∀ k ∉ rasterKeys, key ≠ k := by
    rintro k hk rfl
    exact hk h
  unfold applyLaser
  rw [r.speed.erase fun he => absurd he (hne _ (by decide)),
    r.power.erase fun he => absurd he (hne _ (by decide)),
    r.dratio.erase fun he => absurd he (hne _ (by decide)),
    r.dratioCustom.erase fun he => absurd he (hne _ (by decide)),
    r.acceleration.erase fun he => absurd he (hne _ (by decide)),
    r.accelerationCustom.erase fun he => absurd he (hne _ (by decide))]

end SettingsUpdate

namespace Operation

open SettingsUpdate

variable {o : Operation} {p : Properties} {key : String}

theorem hasSameProperties_eq (h : o.settings.Numeric) (p : Properties) :
    o.hasSameProperties p ↔
      (o.setProperties p).settings.same o.settings ∧ (o.setProperties p).kind = o.kind := by
  unfold hasSameProperties setProperties
  rw [Bool.and_eq_true, matchesLaser_eq _ h, matchesKind_iff]

theorem setProperties_erase (h : o.takes p key = false) :
    o.setProperties (p.erase key) = o.setProperties p := by
  unfold setProperties
  dsimp only
  rcases Bool.and_eq_false_iff.mp h with h | h
  · rw [read_erase h]
  · obtain ⟨hraster, hkind⟩ : key ∈ rasterKeys ∧ o.type ≠ .raster := by simpa using h
    have happly : ∀ u : SettingsUpdate, u.applyKind o.kind = o.kind := by
      unfold type at hkind
      cases hk : o.kind with
      | raster s => rw [hk] at hkind; exact absurd rfl hkind
      | _ => exact fun u => rfl
    rw [applyLaser_erase hraster, happly, happly]

/-- An overscan that cannot be read gives a raster operation one of 20, and is compared as such
beside all other values. -/
theorem overscan_of_unreadable {s : RasterSettings} (hk : o.kind = .raster s)
    (hc : p.contains "overscan") (hn : int32? p "overscan" = none) :
    (o.setProperties p).kind.raster?.map (·.overscan) = some 20 ∧
      (o.hasSameProperties p ↔
        s.overscan = 20 ∧ o.hasSameProperties (p.erase "overscan")) := by
  have hread := overscan_read hc hn
  constructor
  · simp [setProperties, applyKind, applyRaster, OperationKind.raster?, hk, hread]
  · have hlaser : (read (p.erase "overscan")).matchesLaser o.settings =
        (read p).matchesLaser o.settings := by
      rw [read_erase_overscan]
      rfl
    have hkind : (read p).matchesKind (.raster s) =
        (decide (s.overscan = 20) && (read (p.erase "overscan")).matchesKind (.raster s)) := by
      rw [read_erase_overscan]
      simp only [matchesKind, matchesRaster, hread, agrees, Bool.and_true]
      exact Bool.and_comm ..
    unfold hasSameProperties
    simp only [hk, hlaser, hkind, Bool.and_eq_true, decide_eq_true_eq]
    exact and_left_comm

/-- Compared with properties, an operation whose floats are numbers has them in place exactly when
setting them leaves all its settings the same. Both read the properties alike: a value that cannot
be read, is out of range, stands under an unknown key, or is meant for raster operations only, may
as well be absent. An overscan that cannot be read may as well be 20: setting it leaves a raster
operation with an overscan of 20, and comparing it asks for that. -/
theorem hasSameProperties_iff (o : Operation) (h : o.settings.Numeric) (p : Properties) :
    (o.hasSameProperties p ↔
      (o.setProperties p).settings.same o.settings ∧ (o.setProperties p).kind = o.kind) ∧
    (∀ key, o.takes p key = false →
      o.setProperties (p.erase key) = o.setProperties p ∧
        o.hasSameProperties (p.erase key) = o.hasSameProperties p) ∧
    (p.contains "overscan" → int32? p "overscan" = none →
      o.setProperties (p.insert "overscan" (.int 20)) = o.setProperties p ∧
        o.hasSameProperties (p.insert "overscan" (.int 20)) = o.hasSameProperties p ∧
        ∀ s, o.kind = .raster s →
          (o.setProperties p).kind.raster?.map (·.overscan) = some 20 ∧
            (o.hasSameProperties p ↔
              s.overscan = 20 ∧ o.hasSameProperties (p.erase "overscan"))) := by
  have hsame : ∀ q : Properties, o.setProperties q = o.setProperties p →
      o.hasSameProperties q = o.hasSameProperties p := by
    intro q hq
    rw [Bool.eq_iff_iff, hasSameProperties_eq h, hasSameProperties_eq h, hq]
  refine ⟨hasSameProperties_eq h p, fun key hkey => ?_, fun hc hn => ?_⟩
  · have hset := setProperties_erase hkey
    exact ⟨hset, hsame _ hset⟩
  · have hset : o.setProperties (p.insert "overscan" (.int 20)) = o.setProperties p := by
      unfold setProperties
      rw [read_insert_overscan hc hn]
    exact ⟨hset, hsame _ hset, fun s hk => overscan_of_unreadable hk hc hn⟩

theorem hasSameProperties_iff_unreadable :
    let o := ofType .raster
    let p : Properties := .ofList [("acceleration", .int 0x80000000), ("overscan", .text "wide"),
      ("power", .text "1e3"), ("raster_step", .int 0)]
    o.settings.Numeric ∧ o.hasSameProperties p ∧
      (o.setProperties p).settings.same o.settings ∧ (o.setProperties p).kind = o.kind ∧
      o.takes p "raster_step" = false ∧
      o.setProperties (p.erase "raster_step") = o.setProperties p ∧
      p.contains "overscan" ∧ int32? p "overscan" = none ∧
      o.setProperties (p.insert "overscan" (.int 20)) = o.setProperties p := by
  intro o p
  have hnumeric : o.settings.Numeric := ⟨by decide, by decide, by decide⟩
  have hsame : o.hasSameProperties p := by decide +kernel
  have hstep : o.takes p "raster_step" = false := by decide +kernel
  have hcontains : p.contains "overscan" := by decide +kernel
  have hunreadable : int32? p "overscan" = none := by decide +kernel
  obtain ⟨hiff, habsent, hoverscan⟩ := hasSameProperties_iff o hnumeric p
  obtain ⟨hsettings, hkind⟩ := hiff.mp hsame
  exact ⟨hnumeric, hsame, hsettings, hkind, hstep, (habsent _ hstep).1, hcontains, hunreadable,
    (hoverscan hcontains hunreadable).1⟩

end Operation
end Engraver
