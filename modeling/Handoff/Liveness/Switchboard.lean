import Handoff.Liveness
import Handoff.Report

/-! Several livenesses with their generations and the guards that end them. -/
namespace Handoff

/-- One liveness and the generation it was made with. -/
structure Switch where
  generation : UInt32
  state : Liveness := .running
deriving DecidableEq, Repr

/-- All livenesses made so far. A guard is the number of its liveness until it is dropped. -/
structure Switchboard where
  taken : UInt32 := 0
  switches : List Switch := []
  guards : List (Option Nat) := []
deriving DecidableEq, Repr

namespace Switchboard

inductive Step where
  | make
  | mark (i : Nat)
  | store (i : Nat) (isRunning : Bool)
  | guard (i : Nat)
  | dropGuard (g : Nat)
  | panicWithGuard (i : Nat) (p : Payload)
deriving DecidableEq, Repr

inductive Result where
  | done
  | generation (g : UInt32)
  | guard (g : Nat)
  | panicked (p : Payload)
deriving DecidableEq, Repr

def states (b : Switchboard) : List Liveness := b.switches.map (·.state)

def put (b : Switchboard) (i : Nat) (l : Liveness) : Switchboard :=
  { b with switches := b.switches.modify i fun s => { s with state := l } }

def make (b : Switchboard) : Switchboard :=
  let g := nextGeneration b.taken
  { b with taken := g, switches := b.switches ++ [{ generation := g }] }

/-- A dropped guard ends its liveness; it can be dropped once. -/
def dropGuard (b : Switchboard) (g : Nat) : Switchboard :=
  match b.guards[g]? with
  | some (some i) => { b.put i .terminated with guards := b.guards.set g none }
  | _ => b

def step (b : Switchboard) : Step → Switchboard × Result
  | .make => (b.make, .generation (nextGeneration b.taken))
  | .mark i => (b.put i .terminated, .done)
  | .store i isRunning => (b.put i (.ofFlag isRunning), .done)
  | .guard i => ({ b with guards := b.guards ++ [some i] }, .guard b.guards.length)
  | .dropGuard g => (b.dropGuard g, .done)
  | .panicWithGuard i p => (b.put i .terminated, .panicked p)

def answers (b : Switchboard) : List Step → List (Result × List Liveness)
  | [] => []
  | s :: rest =>
    let (next, result) := b.step s
    (result, next.states) :: next.answers rest

end Switchboard

end Handoff
