import Handoff.Channel
import Handoff.Usage

/-! Bridges in a row, each of which publishes what it handled, one higher, to the next. -/
namespace Handoff.Pipeline

structure Stage where
  completion? : Option Completion
  seen : List UInt32
deriving DecidableEq, Repr

def handledIds (trace : List Event) : List UInt32 :=
  trace.filterMap fun
    | .handled r => some r.id
    | _ => none

def stage (ids : List UInt32) (failure? : Option Report) : Usage Channel where
  source := { feed := {} }
  style := .channel
  before :=
    let asked : List Publishing :=
      ids.map (.publish 0) ++ failure?.toList.map (.fail 0) ++ [.finish 0]
    asked.map .publish

/-- Runs `n` stages; each handles what the one before it passed on and ends after it. -/
def run (ids : List UInt32) (failure? : Option Report) (taken : UInt32) : Nat → List Stage
  | 0 => []
  | n + 1 =>
    let u := stage ids failure?
    let c := u.begin taken
    let a := u.conclude c (c.bridge.settle u.handler stepLimit)
    let seen := handledIds a.trace
    ⟨a.completion?, seen⟩ :: run (seen.map (· + 1)) none c.taken n

end Handoff.Pipeline
