import Handoff.Feed

/-! Sources that play back a script. -/
namespace Handoff

/-- How a script counts on from the id of its last yield. -/
inductive Script.Counting where
  | wrapping
  | checked
deriving DecidableEq, Repr

inductive Script.Tail where
  | finish
  | yieldUntilStopped
deriving DecidableEq, Repr

inductive Script.Step where
  | yield (id : UInt32)
  | fail (report : Report)
  | panic (p : Payload)
  | finish
deriving DecidableEq, Repr

/-- A script is used up step by step; `next` is the id that its tail yields. -/
structure Script where
  steps : List Script.Step := []
  tail : Script.Tail := .finish
  counting : Script.Counting := .wrapping
  heedsStop : Bool := true
  retirePanic? : Option Payload := none
  isStopped : Bool := false
  next : UInt32 := 0
  made : Nat := 0
deriving DecidableEq, Repr

namespace Script

def overflowText : String := "attempt to add with overflow"

/-- Makes a record; a checked script fails to do so where the count has no successor. -/
def yield (s : Script) (id : UInt32) : Script × Outcome :=
  if s.counting = .checked ∧ id = 0xffffffff then (s, .panicked (.fixed overflowText))
  else ({ s with next := id + 1, made := s.made + 1 }, .record ⟨id, s.made⟩)

def playTail (s : Script) : Script × Outcome :=
  match s.tail with
  | .finish => (s, .endMarker)
  | .yieldUntilStopped => s.yield s.next

/-- Plays the next step. A script that was stopped and heeds it ends and uses up nothing. -/
def play (s : Script) : Script × Outcome :=
  if s.isStopped && s.heedsStop then (s, .endMarker)
  else match s.steps with
    | [] => s.playTail
    | .yield id :: rest => { s with steps := rest }.yield id
    | .fail report :: rest => ({ s with steps := rest }, .failed report)
    | .panic p :: rest => ({ s with steps := rest }, .panicked p)
    | .finish :: rest => ({ s with steps := rest }, .endMarker)

/-- A script answers every fetch and has no publishers. -/
instance : Feed Script where
  enter s := (s, none, [])
  receive? s := some (s.play.1, s.play.2, [])
  raise s := { s with isStopped := true }
  wake s := s
  publish _ s := (s, [.absent])
  retire s := (s, [])
  retirePanic? s := s.retirePanic?
  publish_notes _ _ := by simp [Event.isPublishing]

end Script

end Handoff
