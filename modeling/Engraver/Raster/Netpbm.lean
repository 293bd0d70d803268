import Engraver.Number.Numeral
import Engraver.Raster.Picture
import Engraver.Files.Tree

/-! # Portable anymaps

Reading of bitmaps, graymaps and pixmaps, written as text or as bytes. Samples are scaled so
that the greatest value of the file is full. Whatever follows the last sample is ignored.
-/

namespace Engraver.Netpbm

def isSeparator (b : UInt8) : Bool :=
  b == 32 || (9 ≤ b && b ≤ 13)

def isLineEnd (b : UInt8) : Bool :=
  b == 10 || b == 13

/-- The header text without comments. A comment runs from `#` up to and with the line end. -/
def nextToken : (inComment : Bool) → (read : List UInt8) → List UInt8 → List UInt8 × List UInt8
  | _, read, [] => (read.reverse, [])
  | true, read, b :: r => nextToken (!isLineEnd b) read r
  | false, read, b :: r =>
    if b == 35 then nextToken true read r
    else if isSeparator b then
      if read.isEmpty then nextToken false read r else (read.reverse, r)
    else nextToken false (b :: read) r

def number? (limit : Nat) (token : List UInt8) : Option Nat :=
  let ds := match token with
    | 43 :: r => r
    | r => r
  if ds.isEmpty || !ds.all (fun b => 48 ≤ b && b ≤ 57) then none
  else
    let n := Numeral.value (ds.map fun b => Char.ofNat b.toNat)
    if n < limit then some n else none

def headerNumber? (bs : List UInt8) : Option (Nat × List UInt8) :=
  let (token, r) := nextToken false [] bs
  (number? 0x100000000 token).map (·, r)

def textSample? (limit : Nat) (bs : List UInt8) : Option (Nat × List UInt8) :=
  let bs := bs.dropWhile isSeparator
  let token := bs.takeWhile (!isSeparator ·)
  (number? limit token).map (·, bs.drop (token.length + 1))

def textSamples? (limit : Nat) : Nat → List UInt8 → Option (List Nat)
  | 0, _ => some []
  | n + 1, bs => do
    let (v, r) ← textSample? limit bs
    let vs ← textSamples? limit n r
    some (v :: vs)

def textBits? : Nat → List UInt8 → Option (List UInt8)
  | _ + 1, [] => none
  | 0, _ => some []
  | n + 1, b :: r =>
    if isSeparator b then textBits? (n + 1) r
    else if b == 48 then (textBits? n r).map (255 :: ·)
    else if b == 49 then (textBits? n r).map (0 :: ·)
    else none
termination_by _ bs => bs.length

def take? (n : Nat) (bs : List UInt8) : Option (List UInt8) :=
  let front := bs.take n
  if front.length = n then some front else none

/-- The bits of a row from the highest of each byte on, each full for white. -/
def rowBits (width : Nat) (row : List UInt8) : List UInt8 :=
  (row.flatMap fun b => (List.range 8).map fun i =>
    if (b.toNat >>> (7 - i)) % 2 = 1 then 0 else 255).take width

def rows (size : Nat) : List UInt8 → List (List UInt8)
  | [] => []
  | b :: bs => (b :: bs.take size) :: rows size (bs.drop size)
termination_by bs => bs.length
decreasing_by simp only [List.length_cons, List.length_drop]; omega

def pairs : List UInt8 → List Nat
  | hi :: lo :: r => (hi.toNat * 256 + lo.toNat) :: pairs r
  | _ => []

def scaled (greatest full v : Nat) : Nat :=
  if greatest = full then v
  else min full (Samples.nearest (Float32.ofNat v * (Float32.ofNat full / Float32.ofNat greatest)))

def bitmap? (asText : Bool) (bs : List UInt8) : Option Picture := do
  let (w, bs) ← headerNumber? bs
  let (h, bs) ← headerNumber? bs
  let bits ← if asText then textBits? (w * h) bs
    else do
      let size := (w + 7) / 8
      let data ← take? (size * h) bs
      some ((rows (size - 1) data).flatMap (rowBits w))
  some ⟨.ofNat w, .ofNat h, .luma, .bytes bits⟩

def pixmap? (channels : Channels) (asText : Bool) (bs : List UInt8) : Option Picture := do
  let (w, bs) ← headerNumber? bs
  let (h, bs) ← headerNumber? bs
  let (greatest, bs) ← headerNumber? bs
  let count := w * h * channels.count
  if greatest = 0 ∨ 0x10000 ≤ greatest then none
  else if greatest < 256 then
    let vs ← if asText then textSamples? 256 count bs
      else (take? count bs).map (·.map UInt8.toNat)
    some ⟨.ofNat w, .ofNat h, channels, .bytes (vs.map fun v => .ofNat (scaled greatest 255 v))⟩
  else
    let vs ← if asText then textSamples? 0x10000 count bs
      else (take? (2 * count) bs).map pairs
    some ⟨.ofNat w, .ofNat h, channels, .words (vs.map fun v => .ofNat (scaled greatest 65535 v))⟩

def decode? : List UInt8 → Option Picture
  | 80 :: 49 :: r => bitmap? true r
  | 80 :: 50 :: r => pixmap? .luma true r
  | 80 :: 51 :: r => pixmap? .rgb true r
  | 80 :: 52 :: r => bitmap? false r
  | 80 :: 53 :: r => pixmap? .luma false r
  | 80 :: 54 :: r => pixmap? .rgb false r
  | _ => none

def extensions : List String :=
  ["pbm", "pgm", "ppm", "pnm", "pam"]

/-- The picture in a file of this name. The extension says that it is one, its content which. -/
def open? (name : String) (content : List UInt8) : Option Picture := do
  let ext ← FileName.extension? name
  if String.ofList (ext.toList.map Char.toLower) ∈ extensions then decode? content else none

end Engraver.Netpbm
