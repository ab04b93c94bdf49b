import Handoff.Consumer
import Handoff.Producer

/-! A bridge: a producer and a consumer over one link, run one labelled step at a time. -/
namespace Handoff

/-- A bridge whose creation failed has no producer, and nobody can stop it. -/
structure Bridge (σ : Type) where
  generation : UInt32
  threadName : String
  link : Link σ
  producer : Option Producer
  consumer : Consumer
  /-- Stop requests from outside that have not woken the source yet. -/
  wakes : Nat := 0
deriving DecidableEq, Repr

namespace Bridge

/-- Who takes the next step, or what happens to the bridge from outside. -/
inductive Label where
  | produce
  | consume
  | raise
  | wake
  | publish (x : Publishing)
  | loseConsumer
  /-- The caller lets go of the completion. -/
  | letGo
deriving DecidableEq, Repr

variable {σ : Type} [Feed σ]

/-- How the producer ended and how many records it handed over. -/
def exit? (b : Bridge σ) : Option (Exit × Nat) := do
  let p ← b.producer
  let exit ← p.exit?
  pure (exit, p.delivered)

def abort? (b : Bridge σ) : Option DispatchError := b.producer.bind Producer.abort?

def completion? (b : Bridge σ) : Option Completion := b.consumer.signal.value

def produce? (b : Bridge σ) : Option (Bridge σ) := do
  let p ← b.producer
  let (p, l) ← p.step? b.link
  pure { b with producer := some p, link := l }

def consume? (h : Handler) (b : Bridge σ) : Option (Bridge σ) := do
  let (c, l) ← b.consumer.step? h b.exit? b.link
  pure { b with consumer := c, link := l }

/-- One step, unless it is not possible here; in a dead process nothing is. -/
def step? (h : Handler) (b : Bridge σ) (label : Label) : Option (Bridge σ) :=
  if b.abort?.isSome then none
  else match label with
    | .produce => b.produce?
    | .consume => b.consume? h
    | .raise =>
      if b.producer.isSome then some { b with link := b.link.raise, wakes := b.wakes + 1 } else none
    | .wake =>
      if 0 < b.wakes then some { b with link := b.link.wake, wakes := b.wakes - 1 } else none
    | .publish x => some { b with link := b.link.publish x }
    | .loseConsumer => b.consumer.lose?.map fun c => { b with consumer := c }
    | .letGo => some { b with consumer := { b.consumer with signal := b.consumer.signal.letGo } }

def run? (h : Handler) (b : Bridge σ) : List Label → Option (Bridge σ)
  | [] => some b
  | label :: rest => (b.step? h label).bind fun next => next.run? h rest

/-- The step that the two sides take next by themselves. -/
def advance? (h : Handler) (b : Bridge σ) : Option (Bridge σ) :=
  (b.step? h .consume).orElse fun _ => b.step? h .produce

/-- Lets both sides go on until neither can, for at most `fuel` steps. -/
def settle (h : Handler) (b : Bridge σ) : Nat → Bridge σ
  | 0 => b
  | fuel + 1 => match b.advance? h with
    | none => b
    | some next => next.settle h fuel

/-- A whole stop request by the caller; there is nothing to stop if the creation failed. -/
def stop (h : Handler) (b : Bridge σ) : Bridge σ := (b.run? h [.raise, .wake]).getD b

end Bridge

end Handoff
