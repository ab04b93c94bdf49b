import Handoff.FileTree

/-! Folders for temporary files, which are deleted with all that is in them. -/
namespace Handoff.Fixture

/-- Folders are named by the process and by a count that never repeats. -/
structure TempFolders where
  process : Nat := 0
  made : Nat := 0
  tree : FileTree := ⟨[(["tmp"], .folder)]⟩
  held : List Bool := []
deriving DecidableEq, Repr

namespace TempFolders

inductive Step where
  | create
  | makeFolder (i : Nat) (name : String)
  | write (i : Nat) (name text : String)
  | drop (i : Nat)
  | remake (i : Nat)
  | unknown
deriving DecidableEq, Repr

inductive Result where
  | created (count : Nat) (inTemp : Bool)
  | entries (n : Nat)
  | done
  | there (b : Bool)
  | absent
deriving DecidableEq, Repr

def tempFolder : Place := ["tmp"]

def place (s : TempFolders) (i : Nat) : Place :=
  tempFolder ++ ["r3bl_thread_bridge_" ++ toString s.process ++ "_" ++ toString i]

def isHeld (s : TempFolders) (i : Nat) : Bool := s.held[i]?.getD false

def isThere (s : TempFolders) (i : Nat) : Bool := s.tree.get? (s.place i) = some .folder

def create (s : TempFolders) : Result × TempFolders :=
  let p := s.place s.made
  (.created (s.made + 1) (p.dropLast == tempFolder),
    { s with made := s.made + 1, held := s.held ++ [true], tree := s.tree.insert p .folder })

def change (s : TempFolders) (i : Nat) (f : FileTree → FileTree) : Result × TempFolders :=
  if s.isHeld i then
    let s := { s with tree := f s.tree }
    (.entries (s.tree.count (s.place i)), s)
  else (.absent, s)

def step (s : TempFolders) : Step → Result × TempFolders
  | .create => s.create
  | .makeFolder i name =>
    s.change i fun t => (t.makeFolders (s.place i) (Path.ofText name)).2
  | .write i name text => s.change i fun t => t.write (s.place i) (Path.ofText name) text
  | .drop i =>
    if s.isHeld i then
      (.done, { s with held := s.held.set i false, tree := s.tree.remove (s.place i) })
    else (.absent, s)
  | .remake i =>
    if i < s.held.length && !s.isHeld i then
      let t := s.tree.insert (s.place i) .folder
      (.there (t.get? (s.place i) = some .folder), { s with tree := t.remove (s.place i) })
    else (.absent, s)
  | .unknown => (.absent, s)

/-- The result of each step and, for each folder made so far, whether it is there after it. -/
def answers (s : TempFolders) : List Step → List (Result × List Bool)
  | [] => []
  | x :: rest =>
    let (result, s) := s.step x
    (result, (List.range s.made).map s.isThere) :: s.answers rest

end TempFolders

end Handoff.Fixture
