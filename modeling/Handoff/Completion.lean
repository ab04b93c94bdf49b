import Handoff.Error

/-! How a producer ended, what the caller learns of it, and the one-shot signal that tells him. -/
namespace Handoff

inductive Exit where
  | endOfStream
  | failed (report : Report)
  | panicked (p : Payload)
deriving DecidableEq, Repr

/-- A thread that unwinds already drops its fetcher without a further panic. -/
def Exit.raised? : Exit → Option Payload → Option Payload
  | .panicked _, _ => none
  | _, panic? => panic?

/-- A regular exit becomes a panic if the fetcher does not retire in peace. -/
def Exit.orPanic : Exit → Option Payload → Exit
  | .panicked p, _ | _, some p => .panicked p
  | exit, none => exit

structure Summary where
  /-- Told in 64 bits, as by a failed source. -/
  delivered : Nat
  generation : UInt32
deriving DecidableEq, Repr

inductive Completion where
  | finished (s : Summary)
  | failed (e : BridgeError)
deriving DecidableEq, Repr

namespace Completion

def isOk : Completion → Bool
  | finished _ => true
  | failed _ => false

def ofExit (delivered : Nat) (generation : UInt32) : Exit → Completion
  | .endOfStream => finished ⟨delivered, generation⟩
  | .failed report => failed (.sourceFailed delivered report)
  | .panicked p => failed (.producerPanicked p.message)

end Completion

/-- A completion is sent at most once, to a caller who may have let go of it. -/
structure Signal where
  value : Option Completion := none
  isHeld : Bool := true
deriving DecidableEq, Repr

namespace Signal

/-- The first value stays, and nobody learns it who does not wait for it. -/
def send (s : Signal) (c : Completion) : Signal :=
  if s.value.isNone && s.isHeld then { s with value := some c } else s

@[simp] theorem isHeld_send (s : Signal) (c : Completion) : (s.send c).isHeld = s.isHeld := by
  unfold send
  split <;> rfl

theorem send_of_not_isHeld {s : Signal} (hs : s.isHeld = false) (c : Completion) :
    s.send c = s := by
  simp [send, hs]

def abandon (s : Signal) : Signal := s.send (.failed .consumerDropped)

def letGo (s : Signal) : Signal := { s with isHeld := false }

end Signal

inductive Signal.Use where
  | dropSender
  | dropContext
  | finalize (exit : Exit) (delivered : Nat) (generation : UInt32)
  | dropHandle
deriving DecidableEq, Repr

/-- The signal after its use: the finalizer sends its verdict, a lost sender abandons the caller. -/
def Signal.after (s : Signal) : Signal.Use → Signal
  | .dropSender | .dropContext => s.abandon
  | .finalize exit n g => s.send (.ofExit n g exit)
  | .dropHandle => s.letGo

end Handoff
