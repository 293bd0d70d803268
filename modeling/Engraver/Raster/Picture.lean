import Engraver.Number.Binary
import Engraver.Raster.Image

/-! # Decoded pictures

A decoded picture has samples of 8 or 16 bits or floats. Gray and colour pictures of 8 bits
become images as they are, all others after their samples are brought to 8 bits with alpha.
-/

namespace Engraver

inductive Channels where
  | luma
  | lumaAlpha
  | rgb
  | rgba
  deriving DecidableEq, Repr

namespace Channels

def count : Channels → Nat
  | luma => 1
  | lumaAlpha => 2
  | rgb => 3
  | rgba => 4

end Channels

inductive Samples where
  | bytes (xs : List UInt8)
  | words (xs : List UInt16)
  | floats (xs : List Float32)

structure Picture where
  width : UInt32
  height : UInt32
  channels : Channels
  samples : Samples

namespace Samples

def size : Samples → Nat
  | bytes xs => xs.length
  | words xs => xs.length
  | floats xs => xs.length

def ofWord (w : UInt16) : UInt8 :=
  UInt8.ofNat ((w.toNat + 128) / 257)

def nearest (x : Float32) : Nat :=
  match Binary.ofFloat x.toFloat with
  | .finite false m q => (2 * (m * twoPow q.toNat) + twoPow (-q).toNat) / (2 * twoPow (-q).toNat)
  | _ => 0

/-- A sample from zero to one; what is not below one is full. -/
def ofFloat (x : Float32) : UInt8 :=
  if x < 1 then UInt8.ofNat (nearest (if x < 0 then 0 else x * 255)) else 255

def toBytes : Samples → List UInt8
  | bytes xs => xs
  | words xs => xs.map ofWord
  | floats xs => xs.map ofFloat

end Samples

namespace Picture

/-- The samples of each pixel as red, green, blue and alpha; gray is copied, missing alpha is
full. -/
def withAlpha : Channels → List UInt8 → List UInt8
  | .luma, v :: r => v :: v :: v :: 255 :: withAlpha .luma r
  | .lumaAlpha, v :: a :: r => v :: v :: v :: a :: withAlpha .lumaAlpha r
  | .rgb, r :: g :: b :: rest => r :: g :: b :: 255 :: withAlpha .rgb rest
  | .rgba, r :: g :: b :: a :: rest => r :: g :: b :: a :: withAlpha .rgba rest
  | _, _ => []

end Picture

namespace Image

def ofPicture? (p : Picture) : Option (Except ImageError Image) :=
  match p.channels, p.samples with
  | .luma, .bytes xs => ofPixels? p.width p.height .luma xs.toArray
  | .rgb, .bytes xs => ofPixels? p.width p.height .rgb xs.toArray
  | .rgba, .bytes xs => ofPixels? p.width p.height .rgba xs.toArray
  | c, xs => ofPixels? p.width p.height .rgba (Picture.withAlpha c xs.toBytes).toArray

end Image
end Engraver
