import Handoff.Log.Layers
import Handoff.Log.Line

/-! Which subscribers are installed, and what they write. -/
namespace Handoff.Log

inductive Sink where
  | stream (d : Display)
  | file (place : Place)
deriving DecidableEq, Repr

abbrev Subscriber := List Layer

/-- A line is written by every layer with a destination if all filters let it pass. -/
def Subscriber.sinks (s : Subscriber) (level : Level) : List Sink :=
  if s.all (fun | .filter f => f.passes level | _ => true) then
    s.filterMap fun
      | .filter _ => none
      | .display f d => if f.passes level then some (.stream d) else none
      | .file f place => if f.passes level then some (.file place) else none
  else []

/-- The two places a subscriber can be installed at, the files, and everything written so far. -/
structure Registry where
  everywhere : Option Subscriber := none
  here : Option Subscriber := none
  tree : FileTree := {}
  written : List (Sink × Line) := []
deriving DecidableEq, Repr

inductive Installed where
  | installed
  /-- The level is off. -/
  | nothing
  | failed
  | panicked
deriving DecidableEq, Repr

namespace Registry

/-- Installs for all threads, which works once; the log file is opened in any case. -/
def installGlobal (r : Registry) (cwd : Place) (c : Config) : Installed × Registry :=
  if c.level = .off then (.nothing, r)
  else match Layer.createAll cwd c r.tree with
    | (.failed _, t) => (.failed, { r with tree := t })
    | (.panicked, t) => (.panicked, { r with tree := t })
    | (.done layers, t) => match r.everywhere with
      | some _ => (.failed, { r with tree := t })
      | none => (.installed, { r with tree := t, everywhere := some layers })

def installLocal (r : Registry) (cwd : Place) (c : Config) : Installed × Registry :=
  if c.level = .off then (.nothing, r)
  else match Layer.createAll cwd c r.tree with
    | (.failed _, t) => (.failed, { r with tree := t })
    | (.panicked, t) => (.panicked, { r with tree := t })
    | (.done layers, t) => (.installed, { r with tree := t, here := some layers })

def removeLocal (r : Registry) : Registry := { r with here := none }

def subscriber? (r : Registry) (thread : String) : Option Subscriber :=
  if thread = mainThread then r.here.orElse fun _ => r.everywhere else r.everywhere

def emit (r : Registry) (l : Line) : Registry :=
  { r with written := r.written ++
      ((r.subscriber? l.thread).toList.flatMap (·.sinks l.level)).map fun s => (s, l) }

def emitAll (r : Registry) (ls : List Line) : Registry := ls.foldl emit r

def textOf (r : Registry) (s : Sink) : String :=
  String.join ((r.written.filter (·.1 == s)).map (·.2.written))

def linesOf (r : Registry) (s : Sink) : List Line.Seen := Line.inText (r.textOf s)

/-- The lines of a file. New text is written right behind the former one, so the first new line is
read together with what follows the last line break there. -/
def linesOfFile (r : Registry) (place : Place) : List Line.Seen :=
  Line.inText ((r.tree.text? place).getD "" ++ r.textOf (.file place))

end Registry

end Handoff.Log
