import Handoff.Event
import Handoff.Fixture.Ledger

/-! The journal and the ledger that fixtures keep of a bridge. -/
namespace Handoff.Fixture

inductive Entry where
  | fetchEnter
  | fetchReturn (id? : Option UInt32)
  | handlerEnter (id : UInt32)
  | handlerExit (id : UInt32)
  | stopRequested
  | fetcherDropped
  | completed
deriving DecidableEq, Repr

namespace Entry

def text : Entry → String
  | fetchEnter => "FetchEnter"
  | fetchReturn (some id) => "FetchReturn " ++ toString id.toNat
  | fetchReturn none => "FetchReturn"
  | handlerEnter id => "HandlerEnter " ++ toString id.toNat
  | handlerExit id => "HandlerExit " ++ toString id.toNat
  | stopRequested => "StopRequested"
  | fetcherDropped => "FetcherDropped"
  | completed => "Completed"

/-- A fetch that panics does not return. -/
def ofOutcome? : Outcome → Option Entry
  | .record r => some (fetchReturn (some r.id))
  | .endMarker | .failed _ => some (fetchReturn none)
  | .panicked _ => none

def ofEvent? : Event → Option Entry
  | .fetching => some fetchEnter
  | .fetched o => ofOutcome? o
  | .handling r => some (handlerEnter r.id)
  | .handled r => some (handlerExit r.id)
  | .stopRequested => some stopRequested
  | .fetcherDropped .. => some fetcherDropped
  | .completed => some completed
  | _ => none

def firstStop : List Entry → List Entry
  | [] => []
  | stopRequested :: rest => stopRequested :: rest.filter (· != stopRequested)
  | e :: rest => e :: firstStop rest

def ofTrace (trace : List Event) : List Entry := firstStop (trace.filterMap ofEvent?)

end Entry

/-- Every fetched record was made, and every release is noted. -/
def Ledger.ofTrace (trace : List Event) : Ledger :=
  trace.foldl (fun l e => match e with
    | .fetched (.record _) => l.create
    | .released r => l.drop r
    | _ => l) {}

end Handoff.Fixture
