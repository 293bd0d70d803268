/-! # Files and folders

The components of a path and the extension of its last one, and a tree of files under one folder.
Paths are taken from that folder, `.` stays in a folder and `..` leads to the one above.
-/

namespace Engraver

namespace FileName

def split : List Char → List (List Char)
  | [] => [[]]
  | c :: r =>
    if c = '/' then [] :: split r
    else match split r with
      | [] => [[c]]
      | p :: ps => (c :: p) :: ps

def components (path : String) : List String :=
  ((split path.toList).filter fun p => p ≠ [] ∧ p ≠ ['.']).map String.ofList

def last? (path : String) : Option String :=
  (components path).getLast?.filter (· ≠ "..")

/-- The text behind the last dot of the last component. A name that begins with its only dot
has no extension. -/
def extension? (path : String) : Option String := do
  let name ← last? path
  let back := name.toList.reverse
  let ext := back.takeWhile (· ≠ '.')
  match back.drop ext.length with
  | [] => none
  | ['.'] => none
  | _ => some (String.ofList ext.reverse)

end FileName

inductive FileNode where
  | file (content : ByteArray)
  | folder

structure FileTree where
  nodes : List (List String × FileNode)

namespace FileTree

def empty : FileTree := ⟨[]⟩

def node? (t : FileTree) (path : List String) : Option FileNode :=
  if path.isEmpty then some .folder else t.nodes.lookup path

def put (t : FileTree) (path : List String) (n : FileNode) : FileTree :=
  ⟨(path, n) :: t.nodes.filter fun e => e.1 ≠ path⟩

/-- What can name a file or folder: not the folder itself or the one above, no null character, and
at most 255 bytes. -/
def isName (s : String) : Bool :=
  s ≠ "" && s ≠ "." && s ≠ ".." && !s.toList.contains '\x00' && s.utf8ByteSize ≤ 255

/-- One step of a path from a folder to a folder; with `make` a lacking one is made. -/
def enter? (make : Bool) (t : FileTree) (folder : List String) (step : String) :
    Option (FileTree × List String) :=
  if step = "" ∨ step = "." then some (t, folder)
  else if step = ".." then some (t, folder.dropLast)
  else if !isName step then none
  else
    let path := folder ++ [step]
    match t.node? path with
    | some .folder => some (t, path)
    | some (.file _) => none
    | none => if make then some (t.put path .folder, path) else none

def walk? (make : Bool) (t : FileTree) (steps : List String) : Option (FileTree × List String) :=
  steps.foldlM (fun s step => enter? make s.1 s.2 step) (t, [])

def steps (path : String) : List String :=
  (FileName.split path.toList).map String.ofList

/-- Where a path leads: to a folder, or to a name in a folder. -/
def locate? (t : FileTree) (path : String) : Option (List String) := do
  let ss := steps path
  let (_, folder) ← walk? false t ss.dropLast
  let name := ss.getLast?.getD ""
  if isName name then some (folder ++ [name])
  else (enter? false t folder name).map (·.2)

def contains (t : FileTree) (path : String) : Bool :=
  ((t.locate? path).bind t.node?).isSome

def read? (t : FileTree) (path : String) : Option ByteArray :=
  match (t.locate? path).bind t.node? with
  | some (.file content) => some content
  | _ => none

def write? (t : FileTree) (path : String) (content : ByteArray) : Option FileTree := do
  let place ← t.locate? path
  match t.node? place with
  | some .folder => none
  | _ => some (t.put place (.file content))

def makeFolders? (t : FileTree) (steps : List String) : Option FileTree :=
  (walk? true t steps).map (·.1)

def writeDeep (t : FileTree) (path : String) (content : ByteArray) : FileTree × Bool :=
  match t.makeFolders? (FileName.components path).dropLast with
  | none => (t, false)
  | some t => match t.write? path content with
    | some t => (t, true)
    | none => (t, false)

end FileTree
end Engraver
