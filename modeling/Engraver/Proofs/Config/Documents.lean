import Engraver.Config.Files
import Mathlib.Data.List.Nodup

/-! # A configuration as a document

The sections of a configuration, put into a document, are read as this configuration, whatever
form the floats take that can be read as the floats they were.
-/

namespace Engraver

namespace Document

theorem once?_of_mem {ms : List (String × Document)} (h : (ms.map (·.1)).Nodup)
    {m : String × Document} (hm : m ∈ ms) : once? ms m.1 = some (some m.2) := by
  have hfilter : ms.filter (·.1 = m.1) = [m] := by
    induction ms with
    | nil => cases hm
    | cons a ms ih =>
      rw [List.map_cons, List.nodup_cons] at h
      rcases List.mem_cons.mp hm with rfl | hm
      · have hnone : ms.filter (·.1 = m.1) = [] := by
          refine List.filter_eq_nil_iff.mpr fun b hb hname => h.1 ?_
          rw [← of_decide_eq_true hname]
          exact List.mem_map_of_mem hb
        rw [List.filter_cons_of_pos (by simp), hnone]
      · have hne : a.1 ≠ m.1 := fun hname => h.1 (hname ▸ List.mem_map_of_mem hm)
        rw [List.filter_cons_of_neg (by simpa using hne), ih h.2 hm]
  rw [once?, hfilter]

theorem members?_table (ms : List (String × Document)) (h : (ms.map (·.1)).Nodup) (open_ : Bool) :
    (table ms).members? (ms.map (·.1)) open_ = some (ms.map fun m => some m.2) := by
  have hsub (l : List (String × Document)) (hl : ∀ m ∈ l, m ∈ ms) :
      (l.map (·.1)).mapM (once? ms) = some (l.map fun m => some m.2) := by
    induction l with
    | nil => rfl
    | cons m l ih =>
      rw [List.map_cons, List.mapM_cons, once?_of_mem h (hl m List.mem_cons_self),
        ih fun m hm => hl m (List.mem_cons_of_mem _ hm)]
      rfl
  exact hsub ms fun m hm => hm

end Document

def DeviceSettings.readBy (g : Float → Option Float) (d : DeviceSettings) :
    Option DeviceSettings := do
  some ⟨← g d.bedWidth, ← g d.bedHeight, ← g d.scaleX, ← g d.scaleY⟩

def DeviceSettings.reals (d : DeviceSettings) : List Float :=
  [d.bedWidth, d.bedHeight, d.scaleX, d.scaleY]

namespace Config

variable {c : Config} {f : Setting → Document}

/-- The settings by section, each as `f` puts it. -/
def documentBy (f : Setting → Document) (c : Config) : Document :=
  .table (c.sections.map fun s => (s.1, .table (s.2.map fun p => (p.1, f p.2))))

structure KeepsPlain (f : Setting → Document) : Prop where
  whole : ∀ n, f (.whole n) = .int n
  text : ∀ s, f (.text s) = .text s

theorem device?_table (d : DeviceSettings) :
    device? (.table [("bed_width", f (.real d.bedWidth)), ("bed_height", f (.real d.bedHeight)),
      ("scale_x", f (.real d.scaleX)), ("scale_y", f (.real d.scaleY))]) =
      d.readBy fun x => (f (.real x)).float? := by
  have hmembers := Document.members?_table [("bed_width", f (.real d.bedWidth)),
    ("bed_height", f (.real d.bedHeight)), ("scale_x", f (.real d.scaleX)),
    ("scale_y", f (.real d.scaleY))] (by simp) true
  simp only [List.map_cons, List.map_nil] at hmembers
  rw [device?, hmembers]
  rfl

theorem tcpPort?_toNat (n : UInt16) : tcpPort? (.int n.toNat) = some n := by
  have hlt := n.toNat_lt
  have hin : IntRange.uint16.contains n.toNat = true :=
    IntRange.contains_iff.mpr ⟨by simp [IntRange.uint16], by simp [IntRange.uint16]; omega⟩
  rw [tcpPort?, Document.int?, if_pos hin, Option.map_some, Int.toNat_natCast, UInt16.ofNat_toNat]

theorem size?_toNat (n : UInt64) : size? (.int n.toNat) = some n := by
  have hlt := n.toNat_lt
  have hin : IntRange.uint64.contains n.toNat = true :=
    IntRange.contains_iff.mpr ⟨by simp [IntRange.uint64], by simp [IntRange.uint64]; omega⟩
  rw [size?, Document.int?, if_pos hin, Option.map_some, Int.toNat_natCast, UInt64.ofNat_toNat]

theorem server?_table {a p b : Document} {s : ServerConfig} (ha : a.text? = some s.bindAddress)
    (hp : tcpPort? p = some s.tcpPort) (hb : size? b = some s.readBuffer) :
    server? (.table [("bind_address", a), ("port", p), ("read_buffer", b)]) = some s := by
  have hmembers := Document.members?_table
    [("bind_address", a), ("port", p), ("read_buffer", b)] (by simp) true
  simp only [List.map_cons, List.map_nil] at hmembers
  rw [server?, hmembers]
  simp [Document.defaulted?, ha, hp, hb]

theorem emulator?_table {x y b : Document} {e : EmulatorConfig} (hx : x.float? = some e.signs.x)
    (hy : y.float? = some e.signs.y) (hb : b.text? = some e.banner) :
    emulator? (.table [("flip_x", x), ("flip_y", y), ("banner", b)]) = some e := by
  have hmembers := Document.members?_table
    [("flip_x", x), ("flip_y", y), ("banner", b)] (by simp) true
  simp only [List.map_cons, List.map_nil] at hmembers
  rw [emulator?, hmembers]
  simp [Document.defaulted?, hx, hy, hb]

theorem ofDocument?_table {v s e : Document} {c : Config} (hs : server? s = some c.server)
    (he : emulator? e = some c.emulator) :
    ofDocument? (.table [("device", v), ("server", s), ("emulator", e)]) =
      (device? v).map fun d => { c with device := d } := by
  have hmembers := Document.members?_table
    [("device", v), ("server", s), ("emulator", e)] (by simp) true
  simp only [List.map_cons, List.map_nil] at hmembers
  rw [ofDocument?, hmembers]
  cases hv : device? v <;> simp [Document.defaulted?, hs, he, hv]

/-- A configuration is read back but for the floats of the bed, which are as they are read. -/
theorem ofDocument?_documentBy (hf : KeepsPlain f)
    (hx : (f (.real c.emulator.signs.x)).float? = some c.emulator.signs.x)
    (hy : (f (.real c.emulator.signs.y)).float? = some c.emulator.signs.y) :
    ofDocument? (documentBy f c) = (c.device.readBy fun x => (f (.real x)).float?).map fun d =>
      { c with device := d } := by
  have hserver : server? (.table [("bind_address", f (.text c.server.bindAddress)),
      ("port", f (.whole c.server.tcpPort.toNat)),
      ("read_buffer", f (.whole c.server.readBuffer.toNat))]) = some c.server :=
    server?_table (by rw [hf.text]; rfl) (by rw [hf.whole, tcpPort?_toNat])
      (by rw [hf.whole, size?_toNat])
  have hemulator : emulator? (.table [("flip_x", f (.real c.emulator.signs.x)),
      ("flip_y", f (.real c.emulator.signs.y)), ("banner", f (.text c.emulator.banner))]) =
      some c.emulator :=
    emulator?_table hx hy (by rw [hf.text]; rfl)
  rw [← device?_table]
  exact ofDocument?_table hserver hemulator

theorem readBy_eq_some {g : Float → Option Float} {d : DeviceSettings}
    (h : ∀ x ∈ d.reals, g x = some x) : d.readBy g = some d := by
  simp only [DeviceSettings.reals, List.forall_mem_cons, List.not_mem_nil] at h
  obtain ⟨hw, hh, hx, hy, -⟩ := h
  simp [DeviceSettings.readBy, hw, hh, hx, hy]

theorem readBy_eq_none {g : Float → Option Float} {d : DeviceSettings} {x : Float}
    (hx : x ∈ d.reals) (h : g x = none) : d.readBy g = none := by
  simp only [DeviceSettings.reals, List.mem_cons, List.not_mem_nil, or_false] at hx
  unfold DeviceSettings.readBy
  rcases hx with rfl | rfl | rfl | rfl <;> simp [h]

end Config
end Engraver
