import Handoff.Journal
import Handoff.Producer
import Handoff.Script

/-! A producer alone, whose calls are received by hand. -/
namespace Handoff.Producer

inductive Reception where
  | invoke
  | dropCall
  /-- The receiver is dropped first and the call is invoked then. -/
  | invokeAfterClose
deriving DecidableEq, Repr

structure Session where
  producer : Producer := {}
  link : Link Script
  plan : List Reception := []
  stopAt? : Option UInt32 := none
deriving DecidableEq, Repr

namespace Session

def dropReceiver (s : Session) : Session :=
  let (q, rs) := s.link.queue.dropReceiver
  { s with link := { s.link with queue := q }.note (Event.releasing rs) }

def invoke (s : Session) (c : Call) : Session :=
  let l := s.link.note [.handling c.record]
  let l := if s.stopAt? = some c.record.id then l.raise.wake else l
  let l := l.note [.handled c.record, .released c.record]
  { s with link := { l with queue := l.queue.answer c.ticket .handled } }

def dropCall (s : Session) (c : Call) : Session :=
  let l := s.link.note [.released c.record]
  { s with link := { l with queue := l.queue.answer c.ticket (.failed .handlerAborted) } }

/-- Receives the next call as planned, if there is one; what is not planned is invoked. -/
def receive? (s : Session) : Option Session := do
  let (c, q) ← s.link.queue.take?
  let next := { s with link := { s.link with queue := q }, plan := s.plan.tail }
  pure <| match s.plan.head?.getD .invoke with
    | .invoke => next.invoke c
    | .dropCall => next.dropCall c
    | .invokeAfterClose => next.dropReceiver.invoke c

def advance? (s : Session) : Option Session :=
  match s.producer.step? s.link with
  | some (p, l) => some { s with producer := p, link := l }
  | none => s.receive?

def settle (s : Session) : Nat → Session
  | 0 => s
  | fuel + 1 => match s.advance? with
    | none => s
    | some next => next.settle fuel

def start (feed : Script) (plan : List Reception) (stopAt? : Option UInt32) (startsClosed : Bool) :
    Session :=
  let s : Session := { link := .start feed [.starting], plan, stopAt? }
  let s := if startsClosed then s.dropReceiver else s
  { s with link := s.link.note [.sawLiveness s.link.liveness] }

def seeEnd (s : Session) : Session :=
  if s.producer.exit?.isNone then s
  else
    let l := s.link
    let l := if l.queue.hasReceiver then l.note [.sawClosed l.liveness] else l
    { s with link := l.note [.sawJoined l.liveness] }

def run (s : Session) (fuel : Nat) : Session := (s.settle fuel).seeEnd

end Session

end Handoff.Producer
