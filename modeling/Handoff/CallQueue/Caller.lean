import Handoff.CallQueue

/-! A thread in a call: it pushes its record and blocks until its ticket is answered, or it gets the
message back that nobody takes and drops it. -/
namespace Handoff

inductive Call.Field where
  | record
  | done
deriving DecidableEq, Repr

/-- The order in which they are declared is the order in which they are dropped. -/
def Call.fields : List Call.Field := [.record, .done]

inductive Caller.Place where
  /-- The push was refused; these fields of the message are not dropped yet. -/
  | rejected (fields : List Call.Field)
  | blocked (ticket : Nat)
  | returned (a : Answer)
deriving DecidableEq, Repr

structure Caller where
  record : Record
  place : Caller.Place
deriving DecidableEq, Repr

namespace Caller

def answer? (c : Caller) : Option Answer :=
  match c.place with
  | .returned a => some a
  | .rejected _ | .blocked _ => none

def owned? (c : Caller) : Option Record :=
  match c.place with
  | .rejected fields => if .record ∈ fields then some c.record else none
  | .blocked _ | .returned _ => none

def enter (r : Record) (q : CallQueue) : Caller × CallQueue :=
  match q.push? r with
  | some (ticket, q) => (⟨r, .blocked ticket⟩, q)
  | none => (⟨r, .rejected Call.fields⟩, q)

def step? (c : Caller) (q : CallQueue) : Option (Caller × CallQueue × List Record) :=
  match c.place with
  | .rejected (.record :: rest) => some ({ c with place := .rejected rest }, q, [c.record])
  | .rejected (.done :: rest) => some ({ c with place := .rejected rest }, q, [])
  | .rejected [] => some ({ c with place := .returned (.failed .consumerGone) }, q, [])
  | .blocked ticket =>
    (q.collect? ticket).map fun (a, q) => ({ c with place := .returned a }, q, [])
  | .returned _ => none

theorem answer?_eq_some_iff {c : Caller} {a : Answer} :
    c.answer? = some a ↔ c.place = .returned a := by
  unfold answer?
  split
  next b hp => rw [hp, Option.some.injEq, Place.returned.injEq]
  next hp => simp [hp]
  next hp => simp [hp]

theorem enter_of_hasReceiver {q : CallQueue} (hr : q.hasReceiver = true) (r : Record) :
    enter r q = (⟨r, .blocked q.issued⟩,
      { q with issued := q.issued + 1, calls := q.calls ++ [⟨q.issued, r⟩] }) := by
  simp only [enter, CallQueue.push?, if_pos hr]

theorem enter_of_not_hasReceiver {q : CallQueue} (hr : q.hasReceiver = false) (r : Record) :
    enter r q = (⟨r, .rejected Call.fields⟩, q) := by
  simp [enter, CallQueue.push?, hr]

theorem step?_frame {c c' : Caller} {q q' : CallQueue} {rs : List Record}
    (hs : c.step? q = some (c', q', rs)) :
    c'.record = c.record ∧ ∃ answers, q' = { q with answers := answers } := by
  unfold step? at hs
  split at hs
  next => cases hs; exact ⟨rfl, _, rfl⟩
  next => cases hs; exact ⟨rfl, _, rfl⟩
  next => cases hs; exact ⟨rfl, _, rfl⟩
  next ticket hp =>
    obtain ⟨⟨a, q₁⟩, hcollect, heq⟩ := Option.map_eq_some_iff.mp hs
    cases heq
    exact ⟨rfl, _, CallQueue.collect?_eq_some hcollect⟩
  next => cases hs

end Caller

end Handoff
