import Engraver.Geometry.Path
import Engraver.Properties
import Engraver.Raster.Scan

/-! # Elements

What an operation works on: an outline, an image or a text, with a placement and properties.
A text has nothing to plot.
-/

namespace Engraver

inductive Content where
  | path (p : Path)
  | image (i : Image)
  | text (s : String)

structure Element where
  content : Content
  transform : Transform
  values : Properties

namespace Element

def kindName (e : Element) : String :=
  match e.content with
  | .path _ => "path"
  | .image _ => "image"
  | .text _ => "text"

def outline? (e : Element) : Option Path :=
  match e.content with
  | .path p => some (p.transformed e.transform)
  | _ => none

def image? (e : Element) : Option Image :=
  match e.content with
  | .image i => some i
  | _ => none

def firstPoint? (e : Element) : Option Point :=
  match e.content with
  | .path p => p.firstPoint?.map e.transform.apply
  | _ => none

def length? (e : Element) : Option Float :=
  e.outline?.bind Path.length?

def offset (e : Element) : Float × Float :=
  e.transform.offset

theorem firstPoint?_eq (e : Element) : e.firstPoint? = e.outline?.bind Path.firstPoint? := by
  cases h : e.content <;> simp [firstPoint?, outline?, h, Path.firstPoint?_transformed]

end Element
end Engraver
