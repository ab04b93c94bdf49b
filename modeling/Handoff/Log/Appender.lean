import Handoff.FileTree

/-! Opening the file that log lines are appended to. -/
namespace Handoff.Log

inductive AppenderError where
  | noParent (path : String)
  | noFileName (path : String)
deriving DecidableEq, Repr

def AppenderError.message : AppenderError → String
  | noParent path => "Can't access parent folder of " ++ path ++
    ". It might not exist, or you don't have required permissions."
  | noFileName path => "Can't access file name " ++ path ++
    ". It might not exist, or you don't have required permissions."

inductive Attempt (α : Type) where
  | done (a : α)
  | failed (e : AppenderError)
  /-- The file itself could not be opened, which panics. -/
  | panicked
deriving DecidableEq, Repr

namespace Attempt

variable {α β : Type}

def map (f : α → β) : Attempt α → Attempt β
  | done a => done (f a)
  | failed e => failed e
  | panicked => panicked

def panicText : String := "initializing rolling file appender failed"

end Attempt

namespace Appender

/-- The folder and the file name that a path stands for. -/
def locate (path : String) : Except AppenderError (Path × String) :=
  match (Path.ofText path).parent? with
  | none => .error (.noParent path)
  | some folder => match (Path.ofText path).fileName? with
    | none => .error (.noFileName path)
    | some name => .ok (folder, name)

/-- Opens the file of a path, seen from a folder; what was made on the way stays. -/
def create (cwd : Place) (path : String) (t : FileTree) : Attempt Place × FileTree :=
  match locate path with
  | .error e => (.failed e, t)
  | .ok (folder, name) => match t.openDeep cwd folder name with
    | (some place, t) => (.done place, t)
    | (none, t) => (.panicked, t)

end Appender

end Handoff.Log
