import Handoff.Event

/-! What a bridge needs from the source it reads: fetches in two steps, stops in two steps, an
end. -/
namespace Handoff

/-- What is asked of the publishers of a source, who are known by number. -/
inductive Publishing where
  | publish (p : Nat) (id : UInt32)
  | fail (p : Nat) (report : Report)
  | isStopped (p : Nat)
  | clone (p : Nat)
  | finish (p : Nat)
  | unknown
deriving DecidableEq, Repr

/-- A started source. Records it lets go of are handed out, oldest first, to be released. -/
class Feed (σ : Type) where
  /-- Begins a fetch, which is answered at once or goes on to wait. -/
  enter : σ → σ × Option Outcome × List Record
  /-- Ends a fetch that waits, unless it has nothing to answer yet. -/
  receive? : σ → Option (σ × Outcome × List Record)
  /-- First half of a stop: from now on the source counts as stopped. -/
  raise : σ → σ
  /-- Second half of a stop: wakes a fetch that waits. -/
  wake : σ → σ
  publish : Publishing → σ → σ × List Event
  /-- The fetching end is dropped. -/
  retire : σ → σ × List Record
  /-- The panic raised when the fetching end is dropped in peace. -/
  retirePanic? : σ → Option Payload
  /-- Publishers have no part in what the two sides of a bridge do. -/
  publish_notes : ∀ x f, ∀ e ∈ (publish x f).2, e.isPublishing

namespace Feed

variable {σ τ : Type} [Feed σ] [Feed τ]

def stop (f : σ) : σ := wake (raise f)

def publishAll (f : σ) : List Publishing → σ × List Event
  | [] => (f, [])
  | x :: rest =>
    let (f, es) := publish x f
    let (f, more) := publishAll f rest
    (f, es ++ more)

instance : Feed (σ ⊕ τ) where
  enter
    | .inl f => let (f, r) := enter f; (.inl f, r)
    | .inr f => let (f, r) := enter f; (.inr f, r)
  receive?
    | .inl f => (receive? f).map fun (f, r) => (.inl f, r)
    | .inr f => (receive? f).map fun (f, r) => (.inr f, r)
  raise := Sum.map raise raise
  wake := Sum.map wake wake
  publish x
    | .inl f => let (f, es) := publish x f; (.inl f, es)
    | .inr f => let (f, es) := publish x f; (.inr f, es)
  retire
    | .inl f => let (f, rs) := retire f; (.inl f, rs)
    | .inr f => let (f, rs) := retire f; (.inr f, rs)
  retirePanic? := Sum.elim retirePanic? retirePanic?
  publish_notes
    | x, .inl f => publish_notes x f
    | x, .inr f => publish_notes x f

end Feed

end Handoff
