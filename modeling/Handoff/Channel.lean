import Handoff.Feed

/-! Sources fed by publishers through a channel. -/
namespace Handoff

inductive Message where
  | record (r : Record)
  | failure (report : Report)
  | wake
deriving DecidableEq, Repr

def Message.record? : Message → Option Record
  | record r => some r
  | failure _ | wake => none

/-- Messages wait oldest first; `publishers` tells for each publisher whether it is still there. -/
structure Channel where
  messages : List Message := []
  isStopped : Bool := false
  isOpen : Bool := true
  publishers : List Bool := [true]
  made : Nat := 0
deriving DecidableEq, Repr

namespace Channel

def hasPublisher (c : Channel) : Bool := c.publishers.any id

def isAlive (c : Channel) (p : Nat) : Bool := c.publishers[p]?.getD false

def records (c : Channel) : List Record := c.messages.filterMap Message.record?

/-- A closed channel takes nothing in. -/
def send (c : Channel) (m : Message) : Channel :=
  if c.isOpen then { c with messages := c.messages ++ [m] } else c

/-- A record is handed back unchanged once the channel is stopped or closed. -/
def accepts (c : Channel) : Bool := !c.isStopped && c.isOpen

def close (c : Channel) : Channel × List Record :=
  ({ c with isOpen := false, messages := [] }, c.records)

def finish (c : Channel) : Channel × Outcome × List Record :=
  let (c, rs) := c.close
  (c, .endMarker, rs)

def enter (c : Channel) : Channel × Option Outcome × List Record :=
  if c.isStopped then
    let (c, o, rs) := c.finish
    (c, some o, rs)
  else (c, none, [])

/-- An empty channel makes a fetch wait as long as someone can still publish. -/
def receive? (c : Channel) : Option (Channel × Outcome × List Record) :=
  match c.messages with
  | .record r :: rest => some ({ c with messages := rest }, .record r, [])
  | .failure report :: rest => some ({ c with messages := rest }, .failed report, [])
  | .wake :: rest => some { c with messages := rest }.finish
  | [] => if c.hasPublisher && c.isOpen then none else some c.finish

def raise (c : Channel) : Channel := { c with isStopped := true }

/-- A wake-up is sent on behalf of the publishers, hence only while there is one. -/
def wake (c : Channel) : Channel := if c.hasPublisher then c.send .wake else c

def publish (x : Publishing) (c : Channel) : Channel × List Event :=
  match x with
  | .publish p id =>
    if c.isAlive p then
      let r : Record := ⟨id, c.made⟩
      let d := { c with made := c.made + 1 }
      if c.accepts then (d.send (.record r), [.published r]) else (d, [.rejected r, .released r])
    else (c, [.absent])
  | .fail p report => if c.isAlive p then (c.send (.failure report), []) else (c, [.absent])
  | .isStopped p => if c.isAlive p then (c, [.sawStopped c.isStopped]) else (c, [.absent])
  | .clone p =>
    if c.isAlive p then ({ c with publishers := c.publishers ++ [true] }, []) else (c, [.absent])
  | .finish p =>
    if p < c.publishers.length then ({ c with publishers := c.publishers.set p false }, [])
    else (c, [.absent])
  | .unknown => (c, [.absent])

theorem publish_notes (x : Publishing) (c : Channel) :
    ∀ e ∈ (c.publish x).2, e.isPublishing := by
  cases x with
  | publish p id =>
    simp only [publish]
    split
    · split <;> simp [Event.isPublishing]
    · simp [Event.isPublishing]
  | fail p _ | isStopped p | clone p | finish p =>
    simp only [publish]
    split <;> simp [Event.isPublishing]
  | unknown => simp [publish, Event.isPublishing]

instance : Feed Channel where
  enter := enter
  receive? := receive?
  raise := raise
  wake := wake
  publish := publish
  retire := close
  retirePanic? _ := none
  publish_notes := publish_notes

end Channel

end Handoff
