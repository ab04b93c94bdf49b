import Handoff.Log.Appender
import Handoff.Log.Config

/-! The layers of a subscriber: a filter, then a layer for each destination. -/
namespace Handoff.Log

inductive Layer where
  | filter (level : Level)
  | display (level : Level) (d : Display)
  | file (level : Level) (place : Place)
deriving DecidableEq, Repr

namespace Layer

def display? (c : Config) : Option Layer := c.writer.display?.map (display c.level)

/-- The file is opened when its layer is made, whatever the level. -/
def createFile (cwd : Place) (c : Config) (t : FileTree) : Attempt (Option Layer) × FileTree :=
  match c.writer.path? with
  | none => (.done none, t)
  | some path =>
    let (a, t) := Appender.create cwd path t
    (a.map fun place => some (file c.level place), t)

def createAll (cwd : Place) (c : Config) (t : FileTree) : Attempt (List Layer) × FileTree :=
  let (a, t) := createFile cwd c t
  (a.map fun file? => filter c.level :: ((display? c).toList ++ file?.toList), t)

end Layer

end Handoff.Log
