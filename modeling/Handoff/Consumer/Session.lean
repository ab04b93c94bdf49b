import Handoff.Consumer
import Handoff.Script

/-! A consumer alone, whose calls come from a thread that pushes one record after another. -/
namespace Handoff.Consumer

inductive Timing where
  | sent
  | lost
  /-- Only after the queue was closed. -/
  | late
deriving DecidableEq, Repr

/-- The thread that pushes. After a failure it goes on only when the consumer is gone. -/
structure Caller where
  ids : List UInt32
  made : Nat := 0
  ticket? : Option Nat := none
  results : List Answer := []
deriving DecidableEq, Repr

def Caller.hasFailed (c : Caller) : Bool := c.results.any (· != .handled)

structure Session where
  consumer : Consumer
  caller : Caller
  link : Link Script
  timing : Timing
  generation : UInt32
  exit : Exit
  delivered : Nat
  panic? : Option (Nat × Payload) := none
deriving DecidableEq, Repr

namespace Session

def handler (s : Session) : Handler := fun n _ =>
  match s.panic? with
  | some (panicAt, p) => if n = panicAt then [.panic p] else []
  | none => []

def start (ids : List UInt32) (timing : Timing) (generation : UInt32) (exit : Exit)
    (delivered : Nat) (panic? : Option (Nat × Payload)) : Session :=
  let context := match timing with
    | .sent => .sent generation
    | .lost => .lost
    | .late => .awaited
  let signal : Signal := {}
  let signal := if timing = .lost then signal.abandon else signal
  { consumer := { context, signal }, caller := { ids }, link := { feed := {} }
    timing, generation, exit, delivered, panic? }

def call? (s : Session) : Option Session :=
  match s.caller.ticket?, s.caller.ids with
  | some ticket, _ =>
    (s.link.queue.collect? ticket).map fun (a, q) =>
      { s with
        link := { s.link with queue := q }
        caller := { s.caller with ticket? := none, results := s.caller.results ++ [a] } }
  | none, id :: rest =>
    if s.caller.hasFailed && s.consumer.place != .gone then none
    else
      let r : Record := ⟨id, s.caller.made⟩
      let caller := { s.caller with ids := rest, made := s.caller.made + 1 }
      match s.link.queue.push? r with
      | some (ticket, q) => some
        { s with link := { s.link with queue := q }, caller := { caller with ticket? := ticket } }
      | none => some
        { s with
          link := s.link.note [.released r]
          caller := { caller with results := caller.results ++ [.failed .consumerGone] } }
  | none, [] =>
    if s.link.queue.hasSender then
      some { s with link := { s.link with queue := s.link.queue.dropSender } }
    else none

def consume? (s : Session) : Option Session :=
  (s.consumer.step? s.handler (some (s.exit, s.delivered)) s.link).map fun (c, l) =>
    { s with consumer := c, link := l }

/-- The late context is sent when nothing else can go on. -/
def sendLate? (s : Session) : Option Session :=
  if s.timing != .late then none
  else (s.consumer.sendContext? s.generation).map fun c =>
    let waits := s.consumer.place = .awaiting
    { s with consumer := c, link := s.link.note (if waits then [.awaitsContext] else []) }

def advance? (s : Session) : Option Session :=
  (s.consume?.orElse fun _ => s.call?).orElse fun _ => s.sendLate?

def settle (s : Session) : Nat → Session
  | 0 => s
  | fuel + 1 => match s.advance? with
    | none => s
    | some next => next.settle fuel

end Session

end Handoff.Consumer
