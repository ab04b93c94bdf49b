import Handoff.Path

/-! A tree of folders and files, and the calls that change it. -/
namespace Handoff

/-- A place in the tree, as the names on the way from its root. -/
abbrev Place := List String

inductive Entry where
  | folder
  | file (text : String)
deriving DecidableEq, Repr

structure FileTree where
  entries : List (Place × Entry) := []
deriving DecidableEq, Repr

inductive FileFault where
  | notFound
  | notFolder
  | isFolder
  | taken
  | tooLong
  | invalid
deriving DecidableEq, Repr

namespace FileTree

def nameLimit : Nat := 255

def pathLimit : Nat := 4095

/-- What stands at a place; the root is a folder. -/
def get? (t : FileTree) (place : Place) : Option Entry :=
  if place = [] then some .folder else (t.entries.find? (·.1 == place)).map (·.2)

def insert (t : FileTree) (place : Place) (e : Entry) : FileTree :=
  ⟨t.entries.filter (·.1 != place) ++ [(place, e)]⟩

def remove (t : FileTree) (place : Place) : FileTree :=
  ⟨t.entries.filter fun e => !place.isPrefixOf e.1⟩

/-- One part further. Only a folder can be left, and the root is above itself. -/
def follow (t : FileTree) (here : Place) (part : Path.Part) : Except FileFault Place :=
  match t.get? here with
  | none => .error .notFound
  | some (.file _) => .error .notFolder
  | some .folder => match part with
    | .root => .ok []
    | .here => .ok here
    | .up => .ok here.dropLast
    | .name s => if nameLimit < s.utf8ByteSize then .error .tooLong else .ok (here ++ [s])

/-- The place a path leads to from a folder. Whether anything stands there is left open. -/
def reach (t : FileTree) (cwd : Place) (p : Path) : Except FileFault Place :=
  if p.parts = [] then .error .notFound
  else if p.hasNul then .error .invalid
  else if pathLimit < p.size then .error .tooLong
  else p.parts.foldlM t.follow cwd

def isFolder (t : FileTree) (cwd : Place) (p : Path) : Bool :=
  match t.reach cwd p with
  | .ok place => t.get? place = some .folder
  | .error _ => false

def makeFolder (t : FileTree) (cwd : Place) (p : Path) : Except FileFault FileTree := do
  let place ← t.reach cwd p
  match t.get? place with
  | some _ => .error .taken
  | none => .ok (t.insert place .folder)

/-- Makes a folder after up to `n` folders that are missing above it. Those that were made stay when
it fails. -/
def makeBelow (t : FileTree) (cwd : Place) (p : Path) : Nat → Bool × FileTree
  | 0 => (p.parts = [] || t.isFolder cwd p, t)
  | n + 1 =>
    if p.parts = [] then (true, t)
    else match t.makeFolder cwd p, p.parent? with
      | .ok t, _ => (true, t)
      | .error .notFound, some above => match t.makeBelow cwd above n with
        | (false, t) => (false, t)
        | (true, t) => match t.makeFolder cwd p with
          | .ok t => (true, t)
          | .error _ => (t.isFolder cwd p, t)
      | .error _, _ => (t.isFolder cwd p, t)

/-- Makes a folder and all that are missing above it, of which there are fewer than pieces. -/
def makeFolders (t : FileTree) (cwd : Place) (p : Path) : Bool × FileTree :=
  t.makeBelow cwd p p.pieces.length

def openFile (t : FileTree) (cwd : Place) (p : Path) : Except FileFault (Place × FileTree) := do
  let place ← t.reach cwd p
  match t.get? place with
  | some .folder => .error .isFolder
  | some (.file _) => .ok (place, t)
  | none => .ok (place, t.insert place (.file ""))

def openDeep (t : FileTree) (cwd : Place) (folder : Path) (name : String) :
    Option Place × FileTree :=
  let p := folder.join name
  match t.openFile cwd p with
  | .ok (place, t) => (some place, t)
  | .error _ => match t.makeFolders cwd folder with
    | (false, t) => (none, t)
    | (true, t) => match t.openFile cwd p with
      | .ok (place, t) => (some place, t)
      | .error _ => (none, t)

def text? (t : FileTree) (place : Place) : Option String :=
  match t.get? place with
  | some (.file text) => some text
  | _ => none

def setText (t : FileTree) (place : Place) (text : String) : FileTree :=
  ⟨t.entries.map fun e => if e.1 == place then (place, .file text) else e⟩

def append (t : FileTree) (place : Place) (text : String) : FileTree :=
  t.setText place ((t.text? place).getD "" ++ text)

def write (t : FileTree) (cwd : Place) (p : Path) (text : String) : FileTree :=
  match t.openFile cwd p with
  | .ok (place, t) => t.setText place text
  | .error _ => t

def label (place : Place) : Entry → String
  | .folder => "/".intercalate place ++ "/"
  | .file _ => "/".intercalate place

def below (t : FileTree) (place : Place) : List (Place × Entry) :=
  t.entries.filterMap fun e =>
    if place.isPrefixOf e.1 && place.length < e.1.length then some (e.1.drop place.length, e.2)
    else none

def listing (t : FileTree) (place : Place) : List String :=
  ((t.below place).map fun e => label e.1 e.2).mergeSort (fun a b => a ≤ b)

def files (t : FileTree) (place : Place) : List (Place × String) :=
  (t.below place).filterMap fun
    | (p, .file text) => some (p, text)
    | _ => none

def count (t : FileTree) (place : Place) : Nat :=
  ((t.below place).filter (·.1.length == 1)).length

end FileTree

end Handoff
