import Handoff.CallQueue.Caller

/-! A call queue with all that happens to its calls: threads push them, they are received, invoked
or dropped one field after the other, and the receiver may go at any time. -/
namespace Handoff

/-- What became of a call that has left the queue. -/
inductive Exchange.Stage where
  | taken
  | handling
  /-- The handler has returned and the call is not answered yet. -/
  | returning
  | falling (fields : List Call.Field)
deriving DecidableEq, Repr

structure Exchange.Hand where
  call : Call
  stage : Exchange.Stage := .taken
deriving DecidableEq, Repr

inductive Exchange.Note where
  | called (r : Record)
  | receiverDropped
  | handling (r : Record)
  | handled (r : Record)
  | panicked (r : Record)
  | discarded (r : Record)
  | released (r : Record)
  | returned (r : Record) (a : Answer)
deriving DecidableEq, Repr

namespace Exchange.Hand

inductive Deed where
  | invoke
  /-- A handler that does not keep the record releases it before it returns. -/
  | finish (keeps : Bool)
  | panic (keeps : Bool)
  | answer
  | drop
  | fall
deriving DecidableEq, Repr

def leftover (h : Hand) (keeps : Bool) : List Note :=
  if keeps then [] else [.released h.call.record]

def owned? (h : Hand) : Option Record :=
  match h.stage with
  | .taken => some h.call.record
  | .falling fields => if .record ∈ fields then some h.call.record else none
  | .handling | .returning => none

/-- What is left of a call after a deed, the answer to its ticket, and what is noted. A panic in the
handler leaves what the call has not handed over. -/
def step? (h : Hand) : Deed → Option (Option Stage × Option Answer × List Note)
  | .invoke => match h.stage with
    | .taken => some (some .handling, none, [.handling h.call.record])
    | _ => none
  | .finish keeps => match h.stage with
    | .handling => some (some .returning, none, h.leftover keeps ++ [.handled h.call.record])
    | _ => none
  | .panic keeps => match h.stage with
    | .handling =>
      some (some (.falling [.done]), none,
        h.leftover keeps ++ [.panicked h.call.record])
    | _ => none
  | .answer => match h.stage with
    | .returning => some (none, some .handled, [])
    | _ => none
  | .drop => match h.stage with
    | .taken => some (some (.falling Call.fields), none, [.discarded h.call.record])
    | _ => none
  | .fall => match h.stage with
    | .falling (.record :: rest) => some (some (.falling rest), none, [.released h.call.record])
    | .falling (.done :: rest) =>
      some (if rest = [] then none else some (.falling rest), some (.failed .handlerAborted), [])
    | _ => none

end Exchange.Hand

/-- The calls of threads are in the order in which they were begun. -/
structure Exchange where
  queue : CallQueue := {}
  callers : List Caller := []
  hands : List Exchange.Hand := []
  notes : List Exchange.Note := []
deriving DecidableEq, Repr

namespace Exchange

inductive Label where
  | call (id : UInt32)
  | caller (i : Nat)
  | release
  | receive
  | dropReceiver
  | hand (h : Hand) (deed : Hand.Deed)
deriving DecidableEq, Repr

/-- What happens by itself: a thread goes on in its call, a call is answered, or its next field
goes. -/
def Label.isInner : Label → Bool
  | caller _ | hand _ .answer | hand _ .fall => true
  | call _ | release | receive | dropReceiver | hand .. => false

def owned (m : Exchange) : List Record :=
  m.queue.calls.map (·.record) ++ m.hands.filterMap Hand.owned? ++ m.callers.filterMap Caller.owned?

/-- One step of a thread in its call or of whoever has the receiver or a call, unless it is not
possible. A taken call needs no receiver any more. -/
def step? (m : Exchange) : Label → Option Exchange
  | .call id =>
    if m.queue.hasSender then
      let r : Record := ⟨id, m.callers.length⟩
      let (c, q) := Caller.enter r m.queue
      some { m with queue := q, callers := m.callers ++ [c], notes := m.notes ++ [.called r] }
    else none
  | .caller i => do
    let c ← m.callers[i]?
    let (c', q, rs) ← c.step? m.queue
    pure
      { m with
        queue := q
        callers := m.callers.set i c'
        notes := m.notes ++ (rs.map Note.released ++ (c'.answer?.map (.returned c.record)).toList) }
  | .release =>
    if m.queue.hasSender ∧ ∀ c ∈ m.callers, c.answer?.isSome then
      some { m with queue := m.queue.dropSender }
    else none
  | .receive =>
    if m.queue.hasReceiver then
      m.queue.take?.map fun (c, q) => { m with queue := q, hands := m.hands ++ [⟨c, .taken⟩] }
    else none
  | .dropReceiver =>
    if m.queue.hasReceiver then
      some
        { m with
          queue := { m.queue with hasReceiver := false, calls := [] }
          hands := m.hands ++ m.queue.calls.map fun c => ⟨c, .falling Call.fields⟩
          notes := m.notes ++ .receiverDropped :: m.queue.calls.map fun c => .discarded c.record }
    else none
  | .hand h deed =>
    if h ∈ m.hands then
      (h.step? deed).map fun (stage?, answer?, es) =>
        { m with
          queue := answer?.elim m.queue (m.queue.answer h.call.ticket)
          hands := m.hands.erase h ++ (stage?.map (Hand.mk h.call)).toList
          notes := m.notes ++ es }
    else none

def run? (m : Exchange) : List Label → Option Exchange
  | [] => some m
  | label :: rest => (m.step? label).bind fun next => next.run? rest

end Exchange

end Handoff
