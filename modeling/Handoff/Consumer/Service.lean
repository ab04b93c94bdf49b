import Handoff.CallQueue.Caller
import Handoff.Consumer

/-! A consumer with all that comes to it: threads push calls until they let go of the queue, and its
context is sent, or the sender of the context dropped, at any moment. -/
namespace Handoff

/-- What became of the context with those who are to send it. -/
inductive Service.Offer where
  | held
  | sent (generation : UInt32)
  /-- Its sender is dropped, and it is never sent. -/
  | withdrawn
deriving DecidableEq, Repr

structure Service (σ : Type) where
  link : Link σ
  consumer : Consumer := {}
  callers : List Caller := []
  offer : Service.Offer := .held
  exit? : Option (Exit × Nat) := none
deriving DecidableEq, Repr

namespace Service

inductive Label where
  | call (id : UInt32)
  | caller (i : Nat)
  | release
  | sendContext (generation : UInt32)
  | loseContext
  | endThread (exit : Exit) (delivered : Nat)
  | consume
deriving DecidableEq, Repr

/-- What needs nobody else: a thread goes on in its call, or the consumer does. -/
def Label.isInner : Label → Bool
  | caller _ | consume => true
  | call _ | release | sendContext _ | loseContext | endThread .. => false

variable {σ : Type} [Feed σ]

def start (f : σ) : Service σ := { link := .start f [] }

/-- One step of a thread, of the consumer or of those who hold its context, unless it is not
possible. Whoever is in a call has borrowed the sending end of the queue. -/
def step? (h : Handler) (m : Service σ) : Label → Option (Service σ)
  | .call id =>
    if m.link.queue.hasSender then
      let (c, q) := Caller.enter ⟨id, m.callers.length⟩ m.link.queue
      some { m with link := { m.link with queue := q }, callers := m.callers ++ [c] }
    else none
  | .caller i => do
    let c ← m.callers[i]?
    let (c', q, rs) ← c.step? m.link.queue
    pure
      { m with
        link := { m.link with queue := q }.note (Event.releasing rs)
        callers := m.callers.set i c' }
  | .release =>
    if m.link.queue.hasSender ∧ ∀ c ∈ m.callers, c.answer?.isSome then
      some { m with link := { m.link with queue := m.link.queue.dropSender } }
    else none
  | .sendContext g =>
    if m.offer = .held then
      some { m with consumer := (m.consumer.sendContext? g).getD m.consumer, offer := .sent g }
    else none
  | .loseContext =>
    if m.offer = .held then
      some { m with consumer := m.consumer.loseContext?.getD m.consumer, offer := .withdrawn }
    else none
  | .endThread exit n => if m.exit? = none then some { m with exit? := some (exit, n) } else none
  | .consume =>
    (m.consumer.step? h m.exit? m.link).map fun (c, l) => { m with consumer := c, link := l }

def run? (h : Handler) (m : Service σ) : List Label → Option (Service σ)
  | [] => some m
  | label :: rest => (m.step? h label).bind fun next => next.run? h rest

end Service

end Handoff
