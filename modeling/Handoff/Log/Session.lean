import Handoff.Log.Registry
import Handoff.Usage

/-! A process that installs logging, uses bridges, and leaves its log behind. -/
namespace Handoff.Log

inductive Preparation where
  | folder (path : String)
  | file (path text : String)
deriving DecidableEq, Repr

namespace Preparation

def scratch : Place := ["tmp", "scratch"]

def workFolder : Place := scratch ++ ["in"]

def apply (t : FileTree) : Preparation → FileTree
  | folder path => (t.makeFolders workFolder (Path.ofText path)).2
  | file path text => t.write workFolder (Path.ofText path) text

def tree (ps : List Preparation) : FileTree :=
  ps.foldl apply ⟨[(["tmp"], .folder), (scratch, .folder), (workFolder, .folder)]⟩

end Preparation

inductive Scope where
  | threadLocal
  | process
deriving DecidableEq, Repr

structure Session (σ : Type) where
  scope : Scope
  config : Config
  again? : Option Config := none
  preparations : List Preparation := []
  emitted : List Level := []
  usages : List (Usage σ) := []
  emittedAfter : List Level := []

structure Remains where
  first : Installed
  second? : Option Installed
  accounts : List Account
  registry : Registry
deriving DecidableEq, Repr

def emittedLine (level : Level) : Line :=
  ⟨mainThread, level, "emitted" ++ field "n" (toString level.rank)⟩

def accountLines (a : Account) : List Line :=
  a.trace.filterMap (Event.line? a.generation a.threadName)

namespace Session

variable {σ : Type} [Feed σ]

def install (s : Session σ) (r : Registry) : Installed × Registry :=
  match s.scope with
  | .threadLocal => r.installLocal Preparation.workFolder s.config
  | .process => r.installGlobal Preparation.workFolder s.config

def installAgain (s : Session σ) (r : Registry) : Option Installed × Registry :=
  match s.again? with
  | none => (none, r)
  | some c =>
    let (i, r) := r.installGlobal Preparation.workFolder c
    (some i, r)

/-- Installs, emits, uses the bridges, and emits again unless one took the process with it. -/
def run (s : Session σ) : Remains :=
  let r : Registry := { tree := Preparation.tree s.preparations }
  let (first, r) := s.install r
  let (second?, r) := s.installAgain r
  let r := r.emitAll (s.emitted.map emittedLine)
  let accounts := Usage.runInTurn 0 s.usages
  let r := r.emitAll (accounts.flatMap accountLines)
  let r := if accounts.any (·.abort?.isSome) then r
    else r.removeLocal.emitAll (s.emittedAfter.map emittedLine)
  { first, second?, accounts, registry := r }

def hasStreams (s : Session σ) : Bool :=
  s.scope == .process || s.config.writer.display?.isSome || s.again?.isSome

end Session

namespace Remains

def files (r : Remains) : List (String × List Line.Seen) :=
  (r.registry.tree.files Preparation.scratch).map fun (place, _) =>
    ("/".intercalate place, r.registry.linesOfFile (Preparation.scratch ++ place))

def stream (r : Remains) (d : Display) : List Line.Seen := r.registry.linesOf (.stream d)

end Remains

end Handoff.Log
