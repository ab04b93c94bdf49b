import Handoff.Completion
import Handoff.Liveness
import Handoff.Record

/-! The observable events of a bridge, from which its journal and its log are read. -/
namespace Handoff

inductive Outcome where
  | record (r : Record)
  | endMarker
  | failed (report : Report)
  | panicked (p : Payload)
deriving DecidableEq, Repr

/-- Whether a loop goes on, which it does unless it is told otherwise. -/
inductive Continuation where
  | goOn
  | stop
deriving DecidableEq, Repr, Inhabited

inductive Event where
  | starting
  | created
  | running
  | fetching
  | fetched (o : Outcome)
  /-- The fetcher is gone; dropping it may have raised a panic. -/
  | fetcherDropped (l : Liveness) (panic? : Option Payload)
  | terminated
  /-- The producer leaves regularly and is about to release its end of the queue. -/
  | leaving (exit : Exit) (delivered : Nat)
  | senderDropped
  | dispatchFailed (e : DispatchError)
  | handling (r : Record)
  | handled (r : Record)
  | joined (isOk : Bool)
  | handlerDropped
  | released (r : Record)
  | stopRequested
  | published (r : Record)
  | rejected (r : Record)
  | sawStopped (isStopped : Bool)
  | absent
  | sawLiveness (l : Liveness)
  | sawGeneration (g : UInt32)
  | sawClosed (l : Liveness)
  | sawJoined (l : Liveness)
  | awaitsContext
  | completed
deriving DecidableEq, Repr

namespace Event

def releasing (rs : List Record) : List Event := rs.map released

def isPublishing : Event → Bool
  | published _ | rejected _ | released _ | sawStopped _ | absent => true
  | _ => false

end Event

/-- What a producer notes before it releases its end of the queue: nothing while it unwinds. -/
def Exit.farewell (delivered : Nat) : Exit → List Event
  | .panicked _ => []
  | exit => [.leaving exit delivered]

end Handoff
