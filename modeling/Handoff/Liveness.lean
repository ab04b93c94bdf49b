/-! Whether a producer still runs. -/
namespace Handoff

inductive Liveness where
  | running
  | terminated
deriving DecidableEq, Repr, Inhabited

namespace Liveness

def ofFlag (isRunning : Bool) : Liveness := if isRunning then running else terminated

def text : Liveness → String
  | running => "Running"
  | terminated => "Terminated"

end Liveness

/-- The generation after one: a counter of 32 bits that wraps. -/
def nextGeneration (taken : UInt32) : UInt32 := taken + 1

end Handoff
