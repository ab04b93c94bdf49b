import Handoff.Link

/-! The producer: a thread that fetches records and hands each over before it fetches the next. -/
namespace Handoff

inductive Producer.Place where
  | starting
  | fetching
  /-- Inside a fetch, past its beginning. -/
  | waiting
  | pushing (r : Record)
  /-- The record was pushed under this ticket, which is not answered yet. -/
  | calling (ticket : Nat)
  /-- The loop was left; the fetcher is dropped next. -/
  | retiring (exit : Exit)
  | marking (exit : Exit)
  | releasing (exit : Exit)
  | ended (exit : Exit)
  /-- The process dies here. -/
  | aborted (e : DispatchError)
deriving DecidableEq, Repr

structure Producer where
  place : Producer.Place := .starting
  /-- A counter of 64 bits, which agrees with this number below 2 ^ 64. -/
  delivered : Nat := 0
deriving DecidableEq, Repr

namespace Producer

def Place.afterFetch : Outcome → Place
  | .record r => pushing r
  | .endMarker => retiring .endOfStream
  | .failed report => retiring (.failed report)
  | .panicked p => retiring (.panicked p)

def exit? (p : Producer) : Option Exit :=
  match p.place with
  | .ended exit => some exit
  | _ => none

def abort? (p : Producer) : Option DispatchError :=
  match p.place with
  | .aborted e => some e
  | _ => none

variable {σ : Type} [Feed σ]

/-- The next step of the producer's thread, unless it waits, has ended or has aborted. -/
def step? (p : Producer) (l : Link σ) : Option (Producer × Link σ) :=
  match p.place with
  | .starting => some ({ p with place := .fetching }, l.note [.running])
  | .fetching =>
    let (f, answer?, rs) := Feed.enter l.feed
    let l := l.fed f (.fetching :: Event.releasing rs)
    match answer? with
    | none => some ({ p with place := .waiting }, l)
    | some o => some ({ p with place := .afterFetch o }, l.note [.fetched o])
  | .waiting =>
    match Feed.receive? l.feed with
    | none => none
    | some (f, o, rs) =>
      some ({ p with place := .afterFetch o },
        l.fed f (Event.releasing rs ++ [.fetched o]))
  | .pushing r =>
    match l.queue.push? r with
    | none => some ({ p with place := .aborted .consumerGone },
        l.note [.released r, .dispatchFailed .consumerGone])
    | some (ticket, q) => some ({ p with place := .calling ticket }, { l with queue := q })
  | .calling ticket =>
    match l.queue.collect? ticket with
    | none => none
    | some (.handled, q) =>
      some ({ place := .fetching, delivered := p.delivered + 1 }, { l with queue := q })
    | some (.failed e, q) =>
      some ({ p with place := .aborted e }, { l with queue := q }.note [.dispatchFailed e])
  | .retiring exit =>
    let (f, rs) := Feed.retire l.feed
    let panic? := exit.raised? (Feed.retirePanic? l.feed)
    some ({ p with place := .marking (exit.orPanic panic?) },
      l.fed f (Event.releasing rs ++ [.fetcherDropped l.liveness panic?]))
  | .marking exit =>
    some ({ p with place := .releasing exit },
      { l with liveness := .terminated }.note [.terminated])
  | .releasing exit =>
    some ({ p with place := .ended exit },
      { l.note (exit.farewell p.delivered ++ [.senderDropped]) with queue := l.queue.dropSender })
  | .ended _ | .aborted _ => none

end Producer

end Handoff
