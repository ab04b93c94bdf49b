import Handoff.Link

/-! The consumer: a task that handles one record after another and then finalizes its bridge. -/
namespace Handoff

inductive Act where
  | stop
  /-- Second half of a stop request. -/
  | finishStop
  | keep
  /-- Gives the record away for good, to someone outside of the bridge. -/
  | setAside
  | releaseKept
  | panic (p : Payload)
  | publish (x : Publishing)
deriving DecidableEq, Repr

/-- A handler knows the number of the invocation, counted from 0, and the record. -/
abbrev Handler := Nat → Record → List Act

/-- The way in which the consumer gets what it needs to finalize: the generation of its bridge. -/
inductive ContextSlot where
  | awaited
  | sent (generation : UInt32)
  /-- The sender is gone. -/
  | lost
  /-- The receiver is gone. -/
  | refused
  | used
deriving DecidableEq, Repr

inductive Consumer.Part where
  | context
  | handler
  | receiver
deriving DecidableEq, Repr

inductive Consumer.Place where
  | fresh
  | receiving
  | handling (call : Call) (isHeld : Bool) (acts : List Act)
  /-- The handler has returned and its caller is told next. -/
  | returning (ticket : Nat)
  | unwinding (ticket : Nat)
  | awaiting
  | joining (generation : UInt32)
  | resolving (c : Completion)
  | leaving (parts : List Consumer.Part)
  | gone
deriving DecidableEq, Repr

structure Consumer where
  place : Consumer.Place := .fresh
  invocations : Nat := 0
  kept : List Record := []
  aside : List Record := []
  context : ContextSlot := .awaited
  signal : Signal := {}
  panic? : Option Payload := none
deriving DecidableEq, Repr

namespace Consumer

variable {σ : Type} [Feed σ]

/-- A record leaves the invocation at its end unless it was kept or given away. -/
def leftover (c : Call) (isHeld : Bool) : List Event :=
  if isHeld then [.released c.record] else []

def act (c : Consumer) (l : Link σ) (call : Call) (isHeld : Bool) (rest : List Act) :
    Act → Consumer × Link σ
  | .stop => ({ c with place := .handling call isHeld (.finishStop :: rest) }, l.raise)
  | .finishStop => ({ c with place := .handling call isHeld rest }, l.wake)
  | .keep =>
    ({ c with
        place := .handling call false rest
        kept := if isHeld then c.kept ++ [call.record] else c.kept }, l)
  | .setAside =>
    ({ c with
        place := .handling call false rest
        aside := if isHeld then c.aside ++ [call.record] else c.aside }, l)
  | .releaseKept =>
    ({ c with place := .handling call isHeld rest, kept := [] }, l.note (Event.releasing c.kept))
  | .panic p =>
    ({ c with place := .unwinding call.ticket, panic? := some p }, l.note (leftover call isHeld))
  | .publish x => ({ c with place := .handling call isHeld rest }, l.publish x)

/-- A context that is destroyed unused tells the caller that the consumer is gone. -/
def dropContext (c : Consumer) : Consumer :=
  match c.context with
  | .sent _ => { c with context := .used, signal := c.signal.abandon }
  | .awaited => { c with context := .refused }
  | .lost | .refused | .used => c

def dropPart (c : Consumer) (l : Link σ) : Part → Consumer × Link σ
  | .context => (c.dropContext, l)
  | .handler => ({ c with kept := [] }, l.note (Event.releasing c.kept ++ [.handlerDropped]))
  | .receiver =>
    let (q, rs) := l.queue.dropReceiver
    (c, { l with queue := q }.note (Event.releasing rs))

/-- The next step of the task, unless it waits or is gone; `exit?` is how the producer ended. -/
def step? (h : Handler) (exit? : Option (Exit × Nat)) (c : Consumer) (l : Link σ) :
    Option (Consumer × Link σ) :=
  match c.place with
  | .fresh => some ({ c with place := .receiving }, l)
  | .receiving =>
    match l.queue.take? with
    | some (call, q) =>
      some ({ c with
          place := .handling call true (h c.invocations call.record)
          invocations := c.invocations + 1 },
        { l with queue := q }.note [.handling call.record])
    | none => if l.queue.hasSender then none else some ({ c with place := .awaiting }, l)
  | .handling call isHeld (a :: rest) => some (c.act l call isHeld rest a)
  | .handling call isHeld [] =>
    some ({ c with place := .returning call.ticket },
      l.note (.handled call.record :: leftover call isHeld))
  | .returning ticket =>
    some ({ c with place := .receiving }, { l with queue := l.queue.answer ticket .handled })
  | .unwinding ticket =>
    some ({ c with place := .leaving [.context, .handler, .receiver] },
      { l with queue := l.queue.answer ticket (.failed .handlerAborted) })
  | .awaiting =>
    match c.context with
    | .sent g => some ({ c with place := .joining g, context := .used }, l)
    | .awaited => none
    | .lost | .refused | .used => some ({ c with place := .leaving [.handler, .receiver] }, l)
  | .joining g =>
    match exit? with
    | none => none
    | some (exit, n) =>
      let verdict := Completion.ofExit n g exit
      some ({ c with place := .resolving verdict }, l.note [.joined verdict.isOk])
  | .resolving verdict =>
    some ({ c with
        place := .leaving [.handler, .receiver]
        signal := c.signal.send verdict }, l)
  | .leaving (part :: rest) =>
    let (c, l) := c.dropPart l part
    some ({ c with place := .leaving rest }, l)
  | .leaving [] => some ({ c with place := .gone }, l)
  | .gone => none

/-- The task can be dropped wherever it lets others run: before its first poll and at its two
waits. -/
def lose? (c : Consumer) : Option Consumer :=
  match c.place with
  | .fresh => some { c with place := .leaving [.receiver, .handler, .context] }
  | .receiving | .awaiting => some { c with place := .leaving [.context, .handler, .receiver] }
  | _ => none

/-- The context is sent once; if nobody can receive it any more it is destroyed. -/
def sendContext? (c : Consumer) (generation : UInt32) : Option Consumer :=
  match c.context with
  | .awaited => some { c with context := .sent generation }
  | .refused => some { c with context := .used, signal := c.signal.abandon }
  | .sent _ | .lost | .used => none

def loseContext? (c : Consumer) : Option Consumer :=
  match c.context with
  | .awaited => some { c with context := .lost }
  | .sent _ | .lost | .refused | .used => none

end Consumer

end Handoff
