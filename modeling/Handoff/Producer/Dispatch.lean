import Handoff.Producer
import Handoff.Producer.Frame

/-! What a producer's thread does with the answers to its calls: a failed call ends the process, in
the function as it is written and in the steps of a producer whose world does whatever it likes. -/
namespace Handoff.Producer

/-- What is answered to one poll: to its fetch, and to its call if it comes to one. -/
structure Poll where
  outcome : Outcome
  answer : Answer := .handled
deriving DecidableEq, Repr

/-- How a poll ends: it returns, it unwinds, or the process dies in it. -/
inductive Polled where
  | returned (c : Continuation)
  | panicked (p : Payload)
  | aborted (e : DispatchError)
deriving DecidableEq, Repr

namespace Frame

/-- One poll. A record is counted after the call for it has returned in peace. -/
def poll (f : Frame) (x : Poll) : Frame × Polled :=
  let f := f.note [.fetching, .fetched x.outcome]
  match x.outcome with
  | .record _ => match x.answer with
    | .handled => ({ f with delivered := f.delivered + 1 }, .returned .goOn)
    | .failed e => (f.note [.dispatchFailed e], .aborted e)
  | .endMarker => ({ f with exit? := some .endOfStream }, .returned .stop)
  | .failed report => ({ f with exit? := some (.failed report) }, .returned .stop)
  | .panicked p => ({ f with panic? := some p }, .panicked p)

/-- The loop over its polls; an error is that of a failed call with the frame the process died
in. -/
def pollAll? (f : Frame) : List Poll → Option (Except (DispatchError × Frame) Frame)
  | [] => none
  | x :: rest => match f.poll x with
    | (f, .returned .goOn) => f.pollAll? rest
    | (f, .returned .stop) | (f, .panicked _) => some (.ok f)
    | (f, .aborted e) => some (.error (e, f))

def execOver? (onDrop? : Option Payload) (xs : List Poll) (f : Frame) :
    Statement → Option (Except (DispatchError × Frame) Frame)
  | .loop => f.pollAll? xs
  | s => (f.exec? onDrop? [] s).map .ok

/-- Statement after statement is executed, until the last one, the first panic or an abort, which
drops nothing. -/
def runOver? (onDrop? : Option Payload) (xs : List Poll) (f : Frame) :
    List Statement → Option (Except (DispatchError × Frame) Frame)
  | [] => some (.ok (f.leave onDrop?))
  | s :: rest => match f.execOver? onDrop? xs s with
    | none => none
    | some (.error aborted) => some (.error aborted)
    | some (.ok next) =>
      if next.panic?.isSome then some (.ok (next.leave onDrop?))
      else next.runOver? onDrop? xs rest

end Frame

def callOver? (onDrop? : Option Payload) (xs : List Poll) :
    Option (Except (DispatchError × Frame) Frame) :=
  Frame.called.runOver? onDrop? xs body

/-- A producer, the records it has pushed and what its calls have returned, in order. -/
structure Exposed (σ : Type) where
  producer : Producer := {}
  link : Link σ
  pushes : List Record := []
  answers : List Answer := []
deriving DecidableEq, Repr

/-- The record that is pushed in the next step. -/
def Place.pushed? : Place → Option Record
  | pushing r => some r
  | starting | fetching | waiting | calling _ | retiring _ | marking _ | releasing _ | ended _
  | aborted _ => none

def Place.answered? : Place → Place → Option Answer
  | calling _, fetching => some .handled
  | _, aborted e => some (.failed e)
  | _, _ => none

namespace Exposed

inductive Label (σ : Type) where
  | produce
  /-- The source and the receiving end of the queue become whatever they become. -/
  | world (feed : σ) (calls : List Call) (answers : List (Nat × Answer)) (hasReceiver : Bool)
deriving DecidableEq, Repr

variable {σ : Type}

def start (feed : σ) : Exposed σ where
  link := .start feed [.starting]

variable [Feed σ]

def step? (m : Exposed σ) : Label σ → Option (Exposed σ)
  | .produce => (m.producer.step? m.link).map fun (p, l) =>
    { producer := p
      link := l
      pushes := m.pushes ++ m.producer.place.pushed?.toList
      answers := m.answers ++ (m.producer.place.answered? p.place).toList }
  | .world feed calls answers hasReceiver =>
    let q := { m.link.queue with calls := calls, answers := answers, hasReceiver := hasReceiver }
    some { m with link := { m.link with feed := feed, queue := q } }

def run? (m : Exposed σ) : List (Label σ) → Option (Exposed σ)
  | [] => some m
  | label :: rest => (m.step? label).bind fun next => next.run? rest

end Exposed

end Handoff.Producer
