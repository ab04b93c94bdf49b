import Handoff.Fleet
import Handoff.Liveness.Switchboard

/-! A process in which bridges are created and livenesses are used beside them. All of them take
their generations from one counter. -/
namespace Handoff

/-- A creation inside of a task set or outside of one, with what the caller does before it. -/
def Usage.attempt {σ : Type} [Feed σ] (u : Usage σ) (isInside : Bool) (taken : UInt32) :
    Creation σ :=
  if isInside then u.begin taken
  else
    let (f, es) := Feed.publishAll u.source.feed (u.before.filterMap CallerAct.early?)
    { u.source with feed := f }.createOutside taken es

/-- Outside of a task set the source is not asked to start. -/
def Usage.starts {σ : Type} (u : Usage σ) (isInside : Bool) : Bool :=
  isInside && u.source.fault?.isNone

namespace Switchboard

def Step.isStore : Step → Bool
  | store .. => true
  | make | mark _ | guard _ | dropGuard _ | panicWithGuard .. => false

def ended? (b : Switchboard) : Step → Option Nat
  | .mark i | .panicWithGuard i _ => some i
  | .dropGuard g => b.guards[g]?.join
  | .make | .store .. | .guard _ => none

end Switchboard

/-- The producer of a bridge drops the guard of its liveness in this step. -/
def Bridge.marks {σ : Type} (b : Bridge σ) : Bridge.Label → Bool
  | .produce => b.producer.any fun p => match p.place with
    | .marking _ => true
    | _ => false
  | .consume | .raise | .wake | .publish _ | .loseConsumer | .letGo => false

/-- The counter belongs to the switchboard, from which the bridges take their generations too. -/
structure Census (σ : Type) where
  board : Switchboard := {}
  fleet : Fleet σ := []

namespace Census

inductive Deed (σ : Type) where
  | use (x : Switchboard.Step)
  | create (isInside : Bool) (u : Usage σ)
  | move (i : Nat) (label : Bridge.Label)

namespace Deed

variable {σ : Type}

/-- A generation is taken: by a liveness that is made alone, and by a creation whose source
starts. -/
def takes : Deed σ → Bool
  | use x => x = .make
  | create isInside u => u.starts isInside
  | move .. => false

def isStore : Deed σ → Bool
  | use x => x.isStore
  | create .. | move .. => false

def isMove : Deed σ → Bool
  | move .. => true
  | use _ | create .. => false

def isGuard : Deed σ → Bool
  | use (.guard _) => true
  | _ => false

end Deed

/-- A liveness is known by its number, that of a bridge by the number of the creation. -/
inductive Id where
  | switch (i : Nat)
  | bridge (i : Nat)
deriving DecidableEq, Repr

/-- Before anything was made, with a counter that stands anywhere. -/
def start {σ : Type} (taken : UInt32) : Census σ := { board := { taken } }

/-- The state of a liveness that was made; where no bridge came of a creation there is none. -/
def liveness? {σ : Type} (m : Census σ) : Id → Option Liveness
  | .switch i => m.board.switches[i]?.map (·.state)
  | .bridge i => m.fleet[i]?.bind fun (_, c) =>
    if c.failure?.isNone then some c.bridge.link.liveness else none

/-- The generation that something was made under, a creation that failed included. -/
def generation? {σ : Type} (m : Census σ) : Id → Option UInt32
  | .switch i => m.board.switches[i]?.map (·.generation)
  | .bridge i => m.fleet[i]?.map fun (_, c) => c.bridge.generation

def born? {σ : Type} (m : Census σ) : Deed σ → Option Id
  | .use .make => some (.switch m.board.switches.length)
  | .create .. => some (.bridge m.fleet.length)
  | .use _ | .move .. => none

def ended? {σ : Type} (m : Census σ) : Deed σ → Option Id
  | .use x => (m.board.ended? x).map .switch
  | .create .. => none
  | .move i label =>
    if m.fleet[i]?.any fun (_, c) => c.bridge.marks label then some (.bridge i) else none

variable {σ : Type} [Feed σ]

def step? (m : Census σ) (d : Deed σ) : Option (Census σ) :=
  if m.fleet.hasDied then none
  else match d with
    | .use x => some { m with board := (m.board.step x).1 }
    | .create isInside u =>
      let c := u.attempt isInside m.board.taken
      some { board := { m.board with taken := c.taken }, fleet := m.fleet ++ [(u, c)] }
    | .move i label => (m.fleet.step? i label).map fun f => { m with fleet := f }

def run? (m : Census σ) : List (Deed σ) → Option (Census σ)
  | [] => some m
  | d :: rest => (m.step? d).bind fun next => next.run? rest

/-- The generations that are taken in a run: what the counter shows each time it has moved. -/
def numbers (m : Census σ) : List (Deed σ) → List UInt32
  | [] => []
  | d :: rest => match m.step? d with
    | none => []
    | some next =>
      if next.board.taken = m.board.taken then next.numbers rest
      else next.board.taken :: next.numbers rest

end Census

end Handoff
