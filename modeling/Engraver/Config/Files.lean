import Engraver.Files.Tree
import Engraver.Json.Parser
import Engraver.Json.Basic
import Engraver.Relay.Server
import Engraver.Toml.Parser
import Engraver.Toml.Quoted

/-! # The configuration and its files

The bed of the device, the relay server and the emulator. A configuration is stored as TOML or JSON,
with a section per part and the settings in a fixed order. What lacks in a stored text keeps its
default, and unknown names are ignored. Loading reads, checks the form and then the settings; saving
checks the settings first. Nothing is written unless all of it can be.
-/

namespace Engraver

structure DeviceSettings where
  bedWidth : Float
  bedHeight : Float
  scaleX : Float
  scaleY : Float

namespace DeviceSettings

def default : DeviceSettings := ⟨320.0, 220.0, 1.0, 1.0⟩

def bedMils (d : DeviceSettings) : Float × Float :=
  (d.bedWidth * milsPerMillimetre * d.scaleX, d.bedHeight * milsPerMillimetre * d.scaleY)

end DeviceSettings

structure Config where
  device : DeviceSettings
  server : ServerConfig
  emulator : EmulatorConfig

inductive ConfigError where
  | file
  | unsupportedFormat (extension : Option String)
  | invalidSetting (key reason : String)
  | badJson
  | badToml
  /-- a number beyond 63 bits, which the format has no room for -/
  | outOfRange
  deriving DecidableEq, Repr

namespace ConfigError

def message? : ConfigError → Option String
  | unsupportedFormat e => some ("Unsupported config format: " ++ e.getD "<none>")
  | invalidSetting key reason => some s!"Invalid setting '{key}': {reason}"
  | _ => none

end ConfigError

namespace Config

def default : Config where
  device := .default
  server := .default
  emulator := .default

def isSign (x : Float) : Bool :=
  x == 1.0 || x == -1.0

def require (ok : Bool) (key reason : String) : Except ConfigError Unit :=
  if ok then .ok () else .error (.invalidSetting key reason)

/-- Checks the settings in order; a size that is not a number passes. -/
def validate (c : Config) : Except ConfigError Unit := do
  let d := c.device
  require (!(d.bedWidth ≤ 0.0) && !(d.bedHeight ≤ 0.0)) "device.bed_width"
    "bed dimensions must be > 0"
  require (!(d.scaleX ≤ 0.0) && !(d.scaleY ≤ 0.0)) "device.scale_x" "scale must be > 0"
  require (c.server.tcpPort != 0) "server.port" "must be > 0"
  require (c.server.readBuffer != 0) "server.read_buffer" "must be > 0"
  require (isSign c.emulator.signs.x) "emulator.flip_x" "must be 1 or -1"
  require (isSign c.emulator.signs.y) "emulator.flip_y" "must be 1 or -1"

def relay (c : Config) (m : Machine) : RelaySlot Emulator :=
  RelaySlot.empty.attach (.start c.emulator m)

end Config

inductive ConfigFormat where
  | toml
  | json
  deriving DecidableEq, Repr

namespace ConfigFormat

def ofFileName (name : String) : Except ConfigError ConfigFormat :=
  match FileName.extension? name with
  | some "toml" => .ok toml
  | some "json" => .ok json
  | e => .error (.unsupportedFormat e)

end ConfigFormat

inductive Setting where
  | real (x : Float)
  | whole (n : Nat)
  | text (s : String)

namespace Setting

def toJson : Setting → Json.Value
  | real x => if x.isFinite then .number (.float x) else .null
  | whole n => .int n
  | text s => .text s

/-- TOML has integers of 64 signed bits. -/
def toToml? : Setting → Option String
  | real x => some (Toml.floatText.render x)
  | whole n => if IntRange.int64.contains n then some (toString n) else none
  | text s => some (Toml.quote s)

end Setting

namespace Config

def sections (c : Config) : List (String × List (String × Setting)) :=
  [("device", [("bed_width", .real c.device.bedWidth), ("bed_height", .real c.device.bedHeight),
      ("scale_x", .real c.device.scaleX), ("scale_y", .real c.device.scaleY)]),
    ("server", [("bind_address", .text c.server.bindAddress),
      ("port", .whole c.server.tcpPort.toNat), ("read_buffer", .whole c.server.readBuffer.toNat)]),
    ("emulator", [("flip_x", .real c.emulator.signs.x), ("flip_y", .real c.emulator.signs.y),
      ("banner", .text c.emulator.banner)])]

def setting? (c : Config) (name : String) : Option Setting :=
  (c.sections.flatMap (·.2)).lookup name

def set? (c : Config) (name : String) (v : Setting) : Option Config :=
  match name, v with
  | "bed_width", .real x => some { c with device.bedWidth := x }
  | "bed_height", .real x => some { c with device.bedHeight := x }
  | "scale_x", .real x => some { c with device.scaleX := x }
  | "scale_y", .real x => some { c with device.scaleY := x }
  | "bind_address", .text s => some { c with server.bindAddress := s }
  | "port", .whole n => some { c with server.tcpPort := .ofNat n }
  | "read_buffer", .whole n => some { c with server.readBuffer := .ofNat n }
  | "flip_x", .real x => some { c with emulator.signs.x := x }
  | "flip_y", .real x => some { c with emulator.signs.y := x }
  | "banner", .text s => some { c with emulator.banner := s }
  | _, _ => none

def toJson (c : Config) : Json.Value :=
  .object (c.sections.map fun (name, settings) =>
    (name, .object (settings.map fun (k, v) => (k, v.toJson))))

def tomlSection? (name : String) (settings : List (String × Setting)) : Option String := do
  let lines ← settings.mapM fun (k, v) => v.toToml?.map fun t => k ++ " = " ++ t ++ "\n"
  some ("[" ++ name ++ "]\n" ++ String.join lines)

def toToml? (c : Config) : Option String :=
  (c.sections.mapM fun (name, settings) => tomlSection? name settings).map "\n".intercalate

def render (c : Config) : ConfigFormat → Except ConfigError String
  | .toml => match c.toToml? with
    | some s => .ok s
    | none => .error .outOfRange
  | .json => .ok (c.toJson.indented 0)

def size? (d : Document) : Option UInt64 :=
  (d.int? .uint64).map fun n => UInt64.ofNat n.toNat

def tcpPort? (d : Document) : Option UInt16 :=
  (d.int? .uint16).map fun n => UInt16.ofNat n.toNat

def device? (d : Document) : Option DeviceSettings := do
  let z := DeviceSettings.default
  match ← d.members? ["bed_width", "bed_height", "scale_x", "scale_y"] true with
  | [w, h, x, y] =>
    some ⟨← Document.defaulted? z.bedWidth Document.float? w,
      ← Document.defaulted? z.bedHeight Document.float? h,
      ← Document.defaulted? z.scaleX Document.float? x,
      ← Document.defaulted? z.scaleY Document.float? y⟩
  | _ => none

def server? (d : Document) : Option ServerConfig := do
  let z := ServerConfig.default
  match ← d.members? ["bind_address", "port", "read_buffer"] true with
  | [a, p, b] =>
    some ⟨← Document.defaulted? z.bindAddress Document.text? a,
      ← Document.defaulted? z.tcpPort tcpPort? p, ← Document.defaulted? z.readBuffer size? b⟩
  | _ => none

def emulator? (d : Document) : Option EmulatorConfig := do
  let z := EmulatorConfig.default
  match ← d.members? ["flip_x", "flip_y", "banner"] true with
  | [x, y, b] =>
    some ⟨⟨← Document.defaulted? z.signs.x Document.float? x,
        ← Document.defaulted? z.signs.y Document.float? y⟩,
      ← Document.defaulted? z.banner Document.text? b⟩
  | _ => none

def ofDocument? (d : Document) : Option Config := do
  match ← d.members? ["device", "server", "emulator"] true with
  | [v, s, e] =>
    some ⟨← Document.defaulted? .default device? v, ← Document.defaulted? .default server? s,
      ← Document.defaulted? .default emulator? e⟩
  | _ => none

def parse (text : String) : ConfigFormat → Except ConfigError Config
  | .toml => match (Toml.document? text).bind ofDocument? with
    | some c => .ok c
    | none => .error .badToml
  | .json => match (Json.document? text).bind ofDocument? with
    | some c => .ok c
    | none => .error .badJson

def fileName : String := "config.toml"

def join (folder name : String) : String :=
  if folder.isEmpty || folder.endsWith "/" then folder ++ name else folder ++ "/" ++ name

/-- Where the configuration of a user is kept: below the folder for configurations, if that is an
absolute path, else below `.config` in the home folder. -/
def defaultPath (home : String) (configHome : Option String) : String :=
  let folder := (configHome.filter (·.startsWith "/")).getD (join home ".config")
  join (join folder "k40kit") fileName

def load (files : FileTree) (path : String) : Except ConfigError Config := do
  let format ← ConfigFormat.ofFileName path
  match (files.read? path).bind String.fromUTF8? with
  | some text =>
    let c ← parse text format
    c.validate
    .ok c
  | none => .error .file

def loadOrDefault (files : FileTree) (path : String) : Except ConfigError Config :=
  if files.contains path then load files path else .ok .default

def textFor (c : Config) (path : String) : Except ConfigError String := do
  c.validate
  let format ← ConfigFormat.ofFileName path
  c.render format

/-- Saves a configuration and gives the text written; folders made on the way stay. -/
def save (c : Config) (files : FileTree) (path : String) : Except ConfigError String × FileTree :=
  match c.textFor path with
  | .error e => (.error e, files)
  | .ok text =>
    let (files, written) := files.writeDeep path text.toUTF8
    (if written then .ok text else .error .file, files)

end Config
end Engraver
