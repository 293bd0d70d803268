/-! # Raster images

An image is a row-major buffer of pixels in one of five modes. It can be built only with a
buffer of the right size and, if its pixels are palette indices, with a palette that has an
entry for each of them. Each pixel burns with an intensity from zero, the laser stays off, to
one, full power.
-/

namespace Engraver

inductive PixelMode where
  | bilevel
  | palette
  | luma
  | rgb
  | rgba
  deriving DecidableEq, Repr

namespace PixelMode

def bytesPerPixel : PixelMode → Nat
  | bilevel | palette | luma => 1
  | rgb => 3
  | rgba => 4

def shortName : PixelMode → String
  | bilevel => "1"
  | palette => "P"
  | luma => "L"
  | rgb => "RGB"
  | rgba => "RGBA"

def name : PixelMode → String
  | bilevel => "Bilevel"
  | palette => "Palette"
  | luma => "Luma"
  | rgb => "Rgb"
  | rgba => "Rgba"

def all : List PixelMode :=
  [bilevel, palette, luma, rgb, rgba]

def ofName? (s : String) : Option PixelMode :=
  all.find? (·.name = s)

end PixelMode

structure Color where
  r : UInt8
  g : UInt8
  b : UInt8
  deriving DecidableEq, Repr

def Color.ofBytes : List UInt8 → List Color
  | r :: g :: b :: rest => ⟨r, g, b⟩ :: ofBytes rest
  | _ => []

inductive ImageError where
  | empty (width height : UInt32)
  | bufferSize (expected actual : Nat)
  | missingPalette
  | paletteIndex (index : UInt8) (size : Nat)
  deriving DecidableEq, Repr

namespace ImageError

def message : ImageError → String
  | empty width height => s!"Image has zero size ({width}x{height})"
  | bufferSize expected actual => s!"Pixel buffer holds {actual} bytes, expected {expected}"
  | missingPalette => "Palette image has an empty palette"
  | paletteIndex index size => s!"Palette index {index} out of range for {size} entries"

end ImageError

namespace Image

/-- The bytes that the geometry asks for; none if 64 bits cannot count them. -/
def expectedSize? (width height : UInt32) (mode : PixelMode) : Option Nat :=
  let size := width.toNat * height.toNat * mode.bytesPerPixel
  if size < UInt64.size then some size else none

structure Valid (width height : UInt32) (mode : PixelMode) (data : Array UInt8)
    (colors : Array Color) : Prop where
  width_ne_zero : width ≠ 0
  height_ne_zero : height ≠ 0
  size_eq : expectedSize? width height mode = some data.size
  colors_ne_empty : mode = .palette → colors ≠ #[]
  index_lt : mode = .palette → ∀ i ∈ data, i.toNat < colors.size

end Image

structure Image where
  width : UInt32
  height : UInt32
  mode : PixelMode
  data : Array UInt8
  colors : Array Color
  valid : Image.Valid width height mode data colors

namespace Image

/-- Fails, with no error to return, where 64 bits cannot count the bytes asked for. -/
def validated? (width height : UInt32) (mode : PixelMode) (data : Array UInt8)
    (colors : Array Color) (hcolors : mode = .palette → colors ≠ #[])
    (hindices : mode = .palette → ∀ i ∈ data, i.toNat < colors.size) :
    Option (Except ImageError Image) :=
  if h0 : width = 0 ∨ height = 0 then some (.error (.empty width height))
  else if hs : expectedSize? width height mode = some data.size then
    some (.ok ⟨width, height, mode, data, colors,
      ⟨fun h => h0 (.inl h), fun h => h0 (.inr h), hs, hcolors, hindices⟩⟩)
  else (expectedSize? width height mode).map fun size => .error (.bufferSize size data.size)

def ofPixels? (width height : UInt32) (mode : PixelMode) (data : Array UInt8) :
    Option (Except ImageError Image) :=
  if hm : mode = .palette then some (.error .missingPalette)
  else validated? width height mode data #[] (absurd · hm) (absurd · hm)

def ofIndices? (width height : UInt32) (data : Array UInt8) (colors : Array Color) :
    Option (Except ImageError Image) :=
  if hc : colors = #[] then some (.error .missingPalette)
  else match hi : data.find? fun i => colors.size ≤ i.toNat with
    | some i => some (.error (.paletteIndex i colors.size))
    | none => validated? width height .palette data colors (fun _ => hc)
        fun _ i him => by simpa using Array.find?_eq_none.1 hi i him

def pixel? (i : Image) (x y : Nat) : Option (List UInt8) :=
  if x < i.width.toNat ∧ y < i.height.toNat then
    let size := i.mode.bytesPerPixel
    -- within the buffer, so the sum and the product are below `2 ^ 64`
    let start := (y * i.width.toNat + x) * size
    if start + size ≤ i.data.size then some (i.data.extract start (start + size)).toList else none
  else none

end Image

def Color.intensity (c : Color) : Float :=
  1.0 - (c.r.toFloat + c.g.toFloat + c.b.toFloat) / 765.0

/-- The intensity of the bytes of one pixel; too few bytes do not burn. -/
def PixelMode.sample (mode : PixelMode) (colors : Array Color) (pixel : List UInt8) : Float :=
  match mode, pixel with
  | .bilevel, v :: _ => (255.0 - v.toFloat) / 255.0
  | .luma, v :: _ => (255.0 - v.toFloat) / 255.0
  | .palette, i :: _ =>
    match colors[i.toNat]? with
    | some c => c.intensity
    | none => 0.0
  | .rgb, r :: g :: b :: _ => Color.intensity ⟨r, g, b⟩
  | .rgba, [r, g, b, a] => Color.intensity ⟨r, g, b⟩ * (a.toFloat / 255.0)
  | _, _ => 0.0

namespace Image

def intensity? (i : Image) (x y : Nat) : Option Float :=
  (i.pixel? x y).map (i.mode.sample i.colors)

def intensity (i : Image) (x y : Nat) : Float :=
  (i.intensity? x y).getD 0.0

end Image
end Engraver
