import Handoff.Error
import Handoff.Record

/-! The queue through which records are handed over, each under a ticket that is answered once. -/
namespace Handoff

/-- A record on its way to the handler and the ticket its sender waits on. -/
structure Call where
  ticket : Nat
  record : Record
deriving DecidableEq, Repr

inductive Answer where
  | handled
  | failed (e : DispatchError)
deriving DecidableEq, Repr

/-- Calls wait in the order of their pushes; answers wait for the senders that hold their
tickets. -/
structure CallQueue where
  issued : Nat := 0
  calls : List Call := []
  answers : List (Nat × Answer) := []
  hasReceiver : Bool := true
  hasSender : Bool := true
deriving DecidableEq, Repr

namespace CallQueue

def push? (q : CallQueue) (r : Record) : Option (Nat × CallQueue) :=
  if q.hasReceiver then
    some (q.issued, { q with issued := q.issued + 1, calls := q.calls ++ [⟨q.issued, r⟩] })
  else none

def take? (q : CallQueue) : Option (Call × CallQueue) :=
  match q.calls with
  | [] => none
  | c :: rest => some (c, { q with calls := rest })

def answer (q : CallQueue) (ticket : Nat) (a : Answer) : CallQueue :=
  { q with answers := q.answers ++ [(ticket, a)] }

def collect? (q : CallQueue) (ticket : Nat) : Option (Answer × CallQueue) :=
  match q.answers.find? (·.1 == ticket) with
  | none => none
  | some (_, a) =>
    some (a, { q with answers := q.answers.filter (·.1 != ticket) })

def isClosed (q : CallQueue) : Bool := q.calls.isEmpty && !q.hasSender

/-- Without a receiver the waiting calls are dropped, which aborts them and releases their
records. -/
def dropReceiver (q : CallQueue) : CallQueue × List Record :=
  ({ q with
      hasReceiver := false
      calls := []
      answers := q.answers ++ q.calls.map fun c => (c.ticket, .failed .handlerAborted) },
    q.calls.map (·.record))

def dropSender (q : CallQueue) : CallQueue := { q with hasSender := false }

theorem push?_eq_some {q q' : CallQueue} {r : Record} {ticket : Nat}
    (h : q.push? r = some (ticket, q')) :
    q' = { q with issued := ticket + 1, calls := q.calls ++ [⟨ticket, r⟩] } := by
  unfold push? at h
  split at h <;> cases h
  rfl

theorem push?_eq_none_iff {q : CallQueue} {r : Record} :
    q.push? r = none ↔ q.hasReceiver = false := by
  simp [push?]

theorem take?_eq_some {q q' : CallQueue} {c : Call} (h : q.take? = some (c, q')) :
    ∃ rest, q.calls = c :: rest ∧ q' = { q with calls := rest } := by
  unfold take? at h
  split at h <;> cases h
  exact ⟨_, by assumption, rfl⟩

theorem take?_eq_none_iff {q : CallQueue} : q.take? = none ↔ q.calls = [] := by
  unfold take?
  split <;> simp_all

theorem dropReceiver_of_calls_eq_nil {q : CallQueue} (h : q.calls = []) :
    q.dropReceiver = ({ q with hasReceiver := false }, []) := by
  simp [dropReceiver, h]

theorem collect?_eq_some {q q' : CallQueue} {ticket : Nat} {a : Answer}
    (h : q.collect? ticket = some (a, q')) :
    q' = { q with answers := q.answers.filter (·.1 != ticket) } := by
  unfold collect? at h
  split at h <;> cases h
  rfl

theorem mem_answers_of_collect? {q q' : CallQueue} {ticket : Nat} {a : Answer}
    (h : q.collect? ticket = some (a, q')) : (ticket, a) ∈ q.answers := by
  unfold collect? at h
  split at h
  · cases h
  · next hf =>
    cases h
    have ht := List.find?_some hf
    simp only [beq_iff_eq] at ht
    exact ht ▸ List.mem_of_find?_eq_some hf

theorem collect?_of_answers_eq_nil {q : CallQueue} (h : q.answers = []) (ticket : Nat) :
    q.collect? ticket = none := by
  simp [collect?, h]

theorem collect?_of_answers_eq {q : CallQueue} {ticket : Nat} {a : Answer}
    (h : q.answers = [(ticket, a)]) : q.collect? ticket = some (a, { q with answers := [] }) := by
  simp [collect?, h]

end CallQueue

end Handoff
