import Handoff.Usage

/-! The plain loop that does the work of a bridge on one thread. -/
namespace Handoff

/-- The source, the records that the handler keeps, and everything that happened so far. -/
structure PlainLoop (σ : Type) where
  feed : σ
  delivered : Nat := 0
  kept : List Record := []
  trace : List Event := []
deriving DecidableEq, Repr

namespace PlainLoop

variable {σ : Type}

def start (l : Link σ) : PlainLoop σ := { feed := l.feed, trace := l.trace.filter Event.isShown }

def note (s : PlainLoop σ) (es : List Event) : PlainLoop σ := { s with trace := s.trace ++ es }

variable [Feed σ]

def receive (s : PlainLoop σ) : Option Outcome × PlainLoop σ :=
  match Feed.receive? s.feed with
  | none => (none, s)
  | some (f, o, rs) => (some o, { s with feed := f }.note (Event.releasing rs ++ [Event.fetched o]))

def fetch (s : PlainLoop σ) : Option Outcome × PlainLoop σ :=
  let (f, answer?, rs) := Feed.enter s.feed
  let s := { s with feed := f }.note (.fetching :: Event.releasing rs)
  match answer? with
  | some o => (some o, s.note [.fetched o])
  | none => s.receive

/-- One thing a handler does, and whether it holds its record after that. A panic is left out. -/
def act (r : Record) : PlainLoop σ × Bool → Act → PlainLoop σ × Bool
  | (s, isHeld), .stop => ({ s with feed := Feed.stop s.feed }.note [.stopRequested], isHeld)
  | (s, isHeld), .finishStop => ({ s with feed := Feed.wake s.feed }, isHeld)
  | (s, isHeld), .keep => (if isHeld then { s with kept := s.kept ++ [r] } else s, false)
  | (s, _), .setAside => (s, false)
  | (s, isHeld), .releaseKept => ({ s with kept := [] }.note (Event.releasing s.kept), isHeld)
  | (s, isHeld), .panic _ => (s, isHeld)
  | (s, isHeld), .publish x =>
    let (f, es) := Feed.publish x s.feed
    ({ s with feed := f }.note es, isHeld)

def finishHandling (r : Record) : PlainLoop σ × Bool → PlainLoop σ
  | (s, isHeld) => { s with delivered := s.delivered + 1 }.note
    (.handled r :: if isHeld then [.released r] else [])

def handle (h : Handler) (s : PlainLoop σ) (r : Record) : PlainLoop σ :=
  finishHandling r ((h s.delivered r).foldl (act r) (s.note [.handling r], true))

def dropHandler (s : PlainLoop σ) : PlainLoop σ :=
  { s with kept := [] }.note (Event.releasing s.kept ++ [Event.handlerDropped])

/-- After the loop the fetcher is dropped and the end is told, and only then the handler goes. -/
def finish (generation : UInt32) (s : PlainLoop σ) (exit : Exit) :
    Option Completion × PlainLoop σ :=
  let (f, rs) := Feed.retire s.feed
  let panic? := exit.raised? (Feed.retirePanic? s.feed)
  let s := { s with feed := f }.note (Event.releasing rs ++ [Event.fetcherDropped .running panic?])
  (some (.ofExit s.delivered generation (exit.orPanic panic?)), s.dropHandler)

def afterFetch (h : Handler) (generation : UInt32)
    (goOn : PlainLoop σ → Option Completion × PlainLoop σ) :
    Option Outcome × PlainLoop σ → Option Completion × PlainLoop σ
  | (none, s) => (none, s)
  | (some (.record r), s) => goOn (s.handle h r)
  | (some .endMarker, s) => s.finish generation .endOfStream
  | (some (.failed report), s) => s.finish generation (.failed report)
  | (some (.panicked p), s) => s.finish generation (.panicked p)

/-- Repeats a fetch and its handling up to the first answer that is no record. After `fuel` fetches,
or when the source goes on waiting, the loop is left where it stands. -/
def run (h : Handler) (generation : UInt32) (s : PlainLoop σ) :
    Nat → Option Completion × PlainLoop σ
  | 0 => (none, s)
  | fuel + 1 => afterFetch h generation (fun s => s.run h generation fuel) s.fetch

def callerAct (generation : UInt32) (s : PlainLoop σ) : CallerAct → PlainLoop σ
  | .stop => { s with feed := Feed.stop s.feed }.note [.stopRequested]
  | .noteLiveness => s.note [.sawLiveness .terminated]
  | .noteGeneration => s.note [.sawGeneration generation]
  | .publish x =>
    let (f, es) := Feed.publish x s.feed
    { s with feed := f }.note es

def waitOver (generation : UInt32) (s : PlainLoop σ) (await : Await) : PlainLoop σ :=
  let s := match await with
    | .bridge | .letGo => s
    | .parts => s.callerAct generation .stop
    | .late => s.callerAct generation .noteLiveness
  s.note [.completed]

def conclude (generation : UInt32) (s : PlainLoop σ) (await : Await) (after : List CallerAct) :
    PlainLoop σ :=
  after.foldl (callerAct generation) (s.waitOver generation await)

end PlainLoop

end Handoff
