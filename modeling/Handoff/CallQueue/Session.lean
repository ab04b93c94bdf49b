import Handoff.CallQueue
import Handoff.Event

/-! A call queue driven by hand: calls are received at once and kept until they are dealt with. -/
namespace Handoff.CallQueue

/-- Received calls stay in the slot of their arrival until they are invoked or dropped. -/
structure Session where
  queue : CallQueue := {}
  slots : List (Option Call) := []
  made : Nat := 0
deriving DecidableEq, Repr

namespace Session

inductive Step where
  | call (id : UInt32)
  | invoke (slot : Nat)
  | invokePanic (slot : Nat) (p : Payload)
  | dropCall (slot : Nat)
  | receive
  | dropReceiver
  | release
  | unknown
deriving DecidableEq, Repr

inductive Result where
  | absent
  | slot (n : Nat)
  | returned (a : Answer)
  | called (a? : Option Answer) (panic? : Option Payload)
  | pending
  | closed
  | done
  | busy
deriving DecidableEq, Repr

abbrev Reply := Result × List Event × Session

def absent (s : Session) : Reply := (.absent, [], s)

def call (s : Session) (id : UInt32) : Reply :=
  if s.queue.hasSender then
    let r : Record := ⟨id, s.made⟩
    let s := { s with made := s.made + 1 }
    match s.queue.push? r with
    | none => (.returned (.failed .consumerGone), [.released r], s)
    | some (_, q) => match q.take? with
      | none => (.pending, [], { s with queue := q })
      | some (c, q) =>
        (.slot s.slots.length, [], { s with queue := q, slots := s.slots ++ [some c] })
  else s.absent

def settle (s : Session) (slot : Nat) (a : Answer) (panic? : Option Payload)
    (es : Record → List Event) : Reply :=
  match s.slots[slot]? with
  | some (some c) =>
    let q := s.queue.answer c.ticket a
    let s := { s with slots := s.slots.set slot none }
    match q.collect? c.ticket with
    | none => (.called none panic?, es c.record, { s with queue := q })
    | some (a, q) => (.called (some a) panic?, es c.record, { s with queue := q })
  | _ => s.absent

/-- The sender cannot be dropped while calls through it are outstanding. -/
def isBusy (s : Session) : Bool := s.slots.any (·.isSome)

def step (s : Session) : Step → Reply
  | .call id => s.call id
  | .invoke slot => s.settle slot .handled none fun r => [.handling r, .released r]
  | .invokePanic slot p =>
    s.settle slot (.failed .handlerAborted) (some p) fun r => [.handling r, .released r]
  | .dropCall slot => s.settle slot (.failed .handlerAborted) none fun r => [.released r]
  | .receive =>
    if !s.queue.hasReceiver then s.absent
    else if s.queue.isClosed then (.closed, [], s)
    else (.pending, [], s)
  | .dropReceiver =>
    if s.queue.hasReceiver then
      let (q, rs) := s.queue.dropReceiver
      (.done, Event.releasing rs, { s with queue := q })
    else s.absent
  | .release =>
    if !s.queue.hasSender then s.absent
    else if s.isBusy then (.busy, [], s)
    else (.done, [], { s with queue := s.queue.dropSender })
  | .unknown => s.absent

def answers (s : Session) : List Step → List (Result × List Event)
  | [] => []
  | x :: rest =>
    let (result, es, s) := s.step x
    (result, es) :: s.answers rest

end Session

end Handoff.CallQueue
