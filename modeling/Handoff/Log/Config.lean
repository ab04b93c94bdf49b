import Handoff.Log.Level

/-! Where log lines go and how verbose they are; configs are merged, the later one first. -/
namespace Handoff.Log

inductive Display where
  | stdout
  | stderr
deriving DecidableEq, Repr

inductive Writer where
  | none
  | display (d : Display)
  | file (path : String)
  | both (d : Display) (path : String)
deriving DecidableEq, Repr

namespace Writer

def ofParts : Option Display → Option String → Writer
  | .none, .none => none
  | some d, .none => display d
  | .none, some path => file path
  | some d, some path => both d path

def display? : Writer → Option Display
  | display d | both d _ => some d
  | none | file _ => .none

def path? : Writer → Option String
  | file path | both _ path => some path
  | none | display _ => .none

/-- Each destination is the later one, if it names one, and else the earlier one. -/
def add : Writer → Writer → Writer
  | none, w => w
  | w, none => w
  | display d, file path | file path, display d => both d path
  | display _, both d path | file _, both d path => both d path
  | display _, display d => display d
  | file _, file path => file path
  | both _ path, display d => both d path
  | both d _, file path => both d path
  | both _ _, both d path => both d path

instance : Add Writer := ⟨add⟩

def sum : List Writer → Writer
  | [] => none
  | w :: ws => ws.foldl (· + ·) w

end Writer

structure Config where
  level : Level
  writer : Writer
deriving DecidableEq, Repr

namespace Config

def defaultFile : String := "thread_bridge_log.txt"

def ofLevel (level : Level) : Config := ⟨level, .file defaultFile⟩

def ofWriter (w : Writer) : Config := ⟨.debug, w⟩

def ofDisplay (d : Display) : Config := ofWriter (.display d)

def ofBoth (path? : Option String) (d : Display) : Config :=
  ofWriter (.both d (path?.getD defaultFile))

def add (a b : Config) : Config := ⟨a.level.max b.level, a.writer + b.writer⟩

instance : Add Config := ⟨add⟩

/-- The configs are merged from the left; there must be one. -/
def sum? : List Config → Option Config
  | [] => none
  | c :: cs => some (cs.foldl (· + ·) c)

end Config

end Handoff.Log
