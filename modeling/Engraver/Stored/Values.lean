import Engraver.Config.Files
import Engraver.Job.Spooler
import Engraver.Json.Parser
import Engraver.Json.Basic

/-! # Stored values

What each type of settings, reports and summaries is stored as in JSON. A structure is an object of
its fields in a fixed order; it is also read from a list of its fields.
-/

namespace Engraver

class Stored (α : Type) where
  toJson : α → Json.Value
  ofDocument? : Document → Option α

namespace Stored

variable {α : Type} [Stored α]

def parse? (text : String) : Option α :=
  (Json.document? text).bind ofDocument?

def render (a : α) : String :=
  (toJson a).compact

def optional : Option α → Json.Value
  | some a => toJson a
  | none => .null

def field? (d : Option Document) : Option α :=
  Document.required? ofDocument? d

def optionalField? (d : Option Document) : Option (Option α) :=
  Document.optional? ofDocument? d

instance : Stored Bool where
  toJson := .bool
  ofDocument? := Document.bool?

instance : Stored Float where
  toJson x := .number (.float x)
  ofDocument? := Document.float?

instance : Stored String where
  toJson := .text
  ofDocument? := Document.text?

end Stored

open Stored

def Document.int32? (d : Document) : Option Int :=
  d.int? .int32

instance : Stored Properties where
  toJson := Properties.toJson
  ofDocument? := Properties.ofDocument?

instance : Stored Config where
  toJson := Config.toJson
  ofDocument? := Config.ofDocument?

instance : Stored MeasurementSystem where
  toJson m := .text m.storedName
  ofDocument? d :=
    (d.variant? ["metric", "imperial"]).bind MeasurementSystem.ofStoredName?

instance : Stored PixelMode where
  toJson m := .text m.name
  ofDocument? d := (d.variant? (PixelMode.all.map PixelMode.name)).bind PixelMode.ofName?

instance : Stored MachineState where
  toJson s := .text s.name
  ofDocument? d := (d.variant? ["Idle", "Busy"]).bind MachineState.ofName?

instance : Stored OperationType where
  toJson t := .text t.name
  ofDocument? d := (d.variant? ["Cut", "Engrave", "Raster"]).bind OperationType.ofName?

instance : Stored Traversal where
  toJson t := .int t.bits.toNat
  ofDocument? d := (d.int? .uint8).map fun n => ⟨UInt8.ofNat n.toNat⟩

instance : Stored RasterDirection where
  toJson d := .int d.index
  ofDocument? d := (d.int? .int64).bind RasterDirection.ofIndex?

instance : Stored ScanDirection where
  toJson d := .object [("top", .bool d.top), ("left", .bool d.left), ("x_major", .bool d.xMajor),
    ("y_major", .bool d.yMajor)]
  ofDocument? d := do
    match ← d.members? ["top", "left", "x_major", "y_major"] false with
    | [t, l, x, y] => some ⟨← field? t, ← field? l, ← field? x, ← field? y⟩
    | _ => none

instance : Stored LaserSettings where
  toJson s := .object [("speed", toJson s.speed), ("power", toJson s.power),
    ("dratio_custom", .bool s.dratioCustom), ("dratio", optional s.dratio),
    ("acceleration_custom", .bool s.accelerationCustom),
    ("acceleration", (s.acceleration.map Json.Value.int).getD .null)]
  ofDocument? d := do
    match ← d.members? ["speed", "power", "dratio_custom", "dratio", "acceleration_custom",
        "acceleration"] false with
    | [s, p, dc, dr, ac, a] =>
      some ⟨← field? s, ← field? p, ← field? dc, ← optionalField? dr, ← field? ac,
        ← Document.optional? Document.int32? a⟩
    | _ => none

instance : Stored RasterSettings where
  toJson s := .object [("raster_step", .int s.step), ("raster_direction", toJson s.direction),
    ("unidirectional", .bool s.unidirectional), ("overscan", .int s.overscan)]
  ofDocument? d := do
    match ← d.members? ["raster_step", "raster_direction", "unidirectional", "overscan"] false with
    | [s, r, u, o] =>
      some ⟨← Document.required? Document.int32? s, ← field? r, ← field? u,
        ← Document.required? Document.int32? o⟩
    | _ => none

instance : Stored JobId where
  toJson i := .text i.render
  ofDocument? d := d.text?.bind JobId.parse?

def Document.position? (d : Document) : Option Nat :=
  (d.int? .uint64).map Int.toNat

instance : Stored JobSummary where
  toJson j := .object [("index", .int j.index), ("id", toJson j.id), ("kind", toJson j.kind),
    ("status", .text j.status), ("speed", toJson j.speed), ("settings", .text j.settings),
    ("estimate", .text j.estimate)]
  ofDocument? d := do
    match ← d.members? ["index", "id", "kind", "status", "speed", "settings", "estimate"]
        false with
    | [n, i, k, s, v, t, e] =>
      some ⟨← Document.required? Document.position? n, ← field? i, ← field? k, ← field? s,
        ← field? v, ← field? t, ← field? e⟩
    | _ => none

def Document.triple? (d : Document) : Option (Float × Float × Float) := do
  match ← d.tuple? 3 with
  | [x, y, z] => some (← x.float?, ← y.float?, ← z.float?)
  | _ => none

instance : Stored StatusReport where
  toJson r := .object [("state", .text r.state),
    ("mpos", .list [toJson r.x, toJson r.y, toJson r.z]), ("feed", toJson r.feed),
    ("power", .int r.power)]
  ofDocument? d := do
    match ← d.members? ["state", "mpos", "feed", "power"] false with
    | [s, m, f, p] =>
      let (x, y, z) ← Document.required? Document.triple? m
      some ⟨← field? s, x, y, z, ← field? f,
        ← Document.required? (Document.int? .int64) p⟩
    | _ => none

end Engraver
