import Handoff.Event

/-! The function of a producer's thread as it is written: what its variables own, the statements
that move and drop it, and what is dropped by itself where the function returns or unwinds. -/
namespace Handoff.Producer

inductive Owned where
  | fetcher
  | guard
  | sender
  | share
deriving DecidableEq, Repr

inductive Variable where
  | givenFetcher
  | givenSender
  | givenLiveness
  | guard
  | producer
  | fetcher
deriving DecidableEq, Repr

inductive Statement where
  | start
  | declare (x : Variable) (o : Owned)
  /-- What a variable owns goes to one that is declared here. -/
  | move (x y : Variable)
  | loop
  | drop (x : Variable)
  | bidFarewell
deriving DecidableEq, Repr

/-- The frame of a call: its variables that own something, the last one declared first, the count of
delivered records, how the loop was left, the panic that unwinds it, and what was noted. -/
structure Frame where
  owners : List (Variable × Owned)
  liveness : Liveness := .running
  delivered : Nat := 0
  exit? : Option Exit := none
  panic? : Option Payload := none
  notes : List Event := []
deriving DecidableEq, Repr

namespace Frame

def note (f : Frame) (es : List Event) : Frame := { f with notes := f.notes ++ es }

def exit (f : Frame) : Exit :=
  match f.panic? with
  | some p => .panicked p
  | none => f.exit?.getD .endOfStream

/-- A value is dropped; `onDrop?` is the panic that dropping the fetcher in peace raises. -/
def release (onDrop? : Option Payload) (f : Frame) : Owned → Frame
  | .fetcher =>
    let raised? := if f.panic?.isSome then none else onDrop?
    { f.note [.fetcherDropped f.liveness raised?] with panic? := f.panic?.or raised? }
  | .guard => { f.note [.terminated] with liveness := .terminated }
  | .sender => f.note [.senderDropped]
  | .share => f

/-- The call is over: all that is still owned is dropped, what was declared last first. -/
def leave (onDrop? : Option Payload) (f : Frame) : Frame :=
  f.owners.foldl (fun f x => f.release onDrop? x.2) { f with owners := [] }

def take? (f : Frame) (x : Variable) : Option (Owned × Frame) :=
  (f.owners.lookup x).map fun o => (o, { f with owners := f.owners.filter (·.1 != x) })

def loop? (f : Frame) : List Outcome → Option Frame
  | [] => none
  | o :: rest =>
    let f := f.note [.fetching, .fetched o]
    match o with
    | .record _ => { f with delivered := f.delivered + 1 }.loop? rest
    | .endMarker => some { f with exit? := some .endOfStream }
    | .failed report => some { f with exit? := some (.failed report) }
    | .panicked p => some { f with panic? := some p }

def exec? (onDrop? : Option Payload) (os : List Outcome) (f : Frame) : Statement → Option Frame
  | .start => some (f.note [.running])
  | .declare x o => some { f with owners := (x, o) :: f.owners }
  | .move x y => (f.take? x).map fun (o, f) => { f with owners := (y, o) :: f.owners }
  | .loop => f.loop? os
  | .drop x => (f.take? x).map fun (o, f) => f.release onDrop? o
  | .bidFarewell => some (f.note (f.exit.farewell f.delivered))

def run? (onDrop? : Option Payload) (os : List Outcome) (f : Frame) : List Statement → Option Frame
  | [] => some (f.leave onDrop?)
  | s :: rest => do
    let next ← f.exec? onDrop? os s
    if next.panic?.isSome then pure (next.leave onDrop?) else next.run? onDrop? os rest

/-- The frame at the call of the function, whose parameters are dropped after all of its
variables. -/
def called : Frame where
  owners := [(.givenLiveness, .share), (.givenSender, .sender), (.givenFetcher, .fetcher)]

end Frame

def body : List Statement :=
  [.declare .guard .guard, .start, .move .givenFetcher .producer, .loop, .move .producer .fetcher,
    .drop .fetcher, .drop .guard, .bidFarewell, .drop .givenSender]

def call? (onDrop? : Option Payload) (os : List Outcome) : Option Frame :=
  Frame.called.run? onDrop? os body

end Handoff.Producer
