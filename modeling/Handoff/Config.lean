/-! The settings of a bridge and of the thread it reads its source on. -/
namespace Handoff

structure Config where
  namePrefix : String := "thread-bridge"
  stackSize : Option Nat := none
deriving DecidableEq, Repr, Inhabited

inductive Setting where
  | name (s : String)
  | stack (bytes : Nat)
deriving DecidableEq, Repr

inductive SpawnFault where
  | badName
  | refused (cause : String)
deriving DecidableEq, Repr

def SpawnFault.nameText : String := "thread name may not contain interior null bytes"

def SpawnFault.refusalText : String := "Resource temporarily unavailable (os error 11)"

namespace Config

def set (c : Config) : Setting → Config
  | .name s => { c with namePrefix := s }
  | .stack bytes => { c with stackSize := some bytes }

def ofSettings (settings : List Setting) : Config := settings.foldl set {}

def generationMark : String := "-gen-"

def threadName (c : Config) (generation : UInt32) : String :=
  c.namePrefix ++ generationMark ++ toString generation.toNat

/-- The size of the memory that a process can address, which no stack can fill. -/
def stackLimit : Nat := Nat.pow 2 47

end Config

/-- A request for a thread with the system's answer to it: the text of an error, if it refuses. It
may refuse any request; unless it is said what it does, it refuses a stack that no process can
hold. -/
structure ThreadRequest extends Config where
  refusal? : Option String :=
    if Config.stackLimit ≤ stackSize.getD 0 then some SpawnFault.refusalText else none
deriving DecidableEq, Repr, Inhabited

namespace ThreadRequest

def ofSettings (settings : List Setting) : ThreadRequest :=
  { toConfig := Config.ofSettings settings }

/-- A thread name must not hold a NUL, which is found before the system is asked. -/
def spawnFault? (r : ThreadRequest) (generation : UInt32) : Option SpawnFault :=
  if '\x00' ∈ (r.threadName generation).toList then some .badName
  else r.refusal?.map .refused

end ThreadRequest

end Handoff
