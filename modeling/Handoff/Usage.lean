import Handoff.Bridge.Create
import Handoff.Journal

/-! What one caller does with a bridge, from its creation to what he does after its completion. -/
namespace Handoff

/-- What a handler does at one invocation, or at all of them. -/
structure Rule where
  at? : Option Nat
  acts : List Act
deriving DecidableEq, Repr

def Rule.applies (r : Rule) (n : Nat) : Bool := r.at?.all (· == n)

def Handler.ofRules (rules : List Rule) : Handler :=
  fun n _ => (rules.filter (·.applies n)).flatMap (·.acts)

inductive CallerAct where
  | stop
  | noteLiveness
  | noteGeneration
  | publish (x : Publishing)
deriving DecidableEq, Repr

inductive Await where
  | bridge
  /-- Waits for the completion alone and requests a stop afterwards. -/
  | parts
  /-- Notes the liveness of the producer once the handler is gone. -/
  | late
  | letGo
deriving DecidableEq, Repr

/-- Before there is a bridge only publishers can be asked, and a stop request goes nowhere. -/
def CallerAct.early? : CallerAct → Option Publishing
  | stop => none
  | noteLiveness | noteGeneration => some .unknown
  | publish x => some x

structure Usage (σ : Type) where
  source : Source σ
  style : Journal.Style
  before : List CallerAct := []
  config : ThreadRequest := {}
  handler : Handler := fun _ _ => []
  afterCreate : List CallerAct := []
  await : Await := .bridge
  after : List CallerAct := []

structure Account where
  style : Journal.Style
  generation : UInt32
  threadName : String
  failure? : Option CreateFailure
  completion? : Option Completion
  trace : List Event
  abort? : Option DispatchError
deriving DecidableEq, Repr

namespace Account

def lines (a : Account) : List String := Journal.lines a.style a.trace

def remains (a : Account) : List String := Journal.lines (.remains a.style) a.trace

def fetchedOn? (a : Account) : Option String :=
  if .fetching ∈ a.trace then some a.threadName else none

end Account

/-- A run that takes more steps than this counts as endless and is cut off. -/
def stepLimit : Nat := Nat.pow 2 40

namespace Bridge

variable {σ : Type} [Feed σ]

def note (b : Bridge σ) (es : List Event) : Bridge σ := { b with link := b.link.note es }

def callerAct (h : Handler) (b : Bridge σ) : CallerAct → Bridge σ
  | .stop => b.stop h
  | .noteLiveness => b.note [.sawLiveness b.link.liveness]
  | .noteGeneration => b.note [.sawGeneration b.generation]
  | .publish x => (b.step? h (.publish x)).getD b

def callerActs (h : Handler) (b : Bridge σ) (acts : List CallerAct) : Bridge σ :=
  acts.foldl (callerAct h) b

end Bridge

namespace Usage

variable {σ : Type} [Feed σ]

/-- The creation with all that the caller does before anything is consumed. -/
def begin (u : Usage σ) (taken : UInt32) : Creation σ :=
  let (f, es) := Feed.publishAll u.source.feed (u.before.filterMap CallerAct.early?)
  let c := { u.source with feed := f }.create u.config taken es
  match c.failure? with
  | some _ => c
  | none =>
    let b := c.bridge.callerActs u.handler u.afterCreate
    let b := if u.await = .letGo then (b.step? u.handler .letGo).getD b else b
    { c with bridge := b }

/-- What the caller notes and does once both sides have come to rest. -/
def waitOver (u : Usage σ) (c : Creation σ) (b : Bridge σ) : Bridge σ :=
  if c.failure?.isSome then b
  else
    let b := match u.await with
      | .bridge | .letGo => b
      | .parts => b.stop u.handler
      | .late => b.note [.sawLiveness b.link.liveness]
    b.note [.completed]

def account (u : Usage σ) (c : Creation σ) (b : Bridge σ) : Account where
  style := u.style
  generation := b.generation
  threadName := b.threadName
  failure? := c.failure?
  completion? := b.completion?
  trace := b.link.trace
  abort? := b.abort?

def conclude (u : Usage σ) (c : Creation σ) (b : Bridge σ) : Account :=
  if b.abort?.isSome then u.account c b
  else u.account c ((u.waitOver c b).callerActs u.handler u.after)

def runInTurn (taken : UInt32) : List (Usage σ) → List Account
  | [] => []
  | u :: rest =>
    let c := u.begin taken
    let a := u.conclude c (c.bridge.settle u.handler stepLimit)
    if a.abort?.isSome then [a] else a :: runInTurn c.taken rest

def runOutside (u : Usage σ) (taken : UInt32) : Account × UInt32 :=
  let (f, es) := Feed.publishAll u.source.feed (u.before.filterMap CallerAct.early?)
  let c := { u.source with feed := f }.createOutside taken es
  (u.account c (c.bridge.callerActs u.handler u.after), c.taken - taken)

end Usage

namespace Bridge

variable {σ : Type} [Feed σ]

def repeat? (h : Handler) (label : Label) (b : Bridge σ) : Nat → Bridge σ
  | 0 => b
  | fuel + 1 => match b.step? h label with
    | none => b
    | some next => next.repeat? h label fuel

end Bridge

/-- The task set runs for a while and is dropped before the source answers anything. -/
def Usage.runLosingTask {σ : Type} [Feed σ] (u : Usage σ) (polls : Nat) (isStopped : Bool)
    (taken : UInt32) : Account :=
  let c := u.begin taken
  let b := if c.failure?.isSome then c.bridge.repeat? u.handler .consume stepLimit else
    let b := c.bridge.repeat? u.handler .consume polls
    let b := (b.step? u.handler .loseConsumer).getD b
    let b := b.repeat? u.handler .consume stepLimit
    let b := if isStopped then b.stop u.handler else b
    let b := b.repeat? u.handler .produce stepLimit
    if b.abort?.isSome then b else b.note [.sawLiveness b.link.liveness]
  u.account c b

end Handoff
