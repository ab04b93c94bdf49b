import Handoff.Channel

/-! A channel driven by hand, with all its ends: publishers, the source, the fetcher, the
stopper. -/
namespace Handoff.Channel

inductive Fetching where
  | unstarted
  | ready
  | begun (answer? : Option Outcome)
  | gone
deriving DecidableEq, Repr

structure Session where
  channel : Channel := {}
  fetching : Fetching := .unstarted
  hasStopper : Bool := false
  live : Int := 0
deriving DecidableEq, Repr

namespace Session

inductive Step where
  | publish (p : Nat) (id : UInt32)
  | fail (p : Nat) (report : Report)
  | isStopped (p : Nat)
  | clone (p : Nat)
  | finish (p : Nat)
  | start
  | dropSource
  | dropStopper
  | dropFetcher
  | stop
  | fetch
  | beginFetch
  | endFetch
  | unknown
deriving DecidableEq, Repr

inductive Result where
  | absent
  | accepted
  | rejected (r : Record)
  | sent
  | stopped (b : Bool)
  | publisher (p : Nat)
  | done
  | started
  | begun
  | blocked
  | fetched (o : Outcome)
deriving DecidableEq, Repr

/-- A result, the records released on the way, and the session after it. -/
abbrev Reply := Result × List Record × Session

def absent (s : Session) : Reply := (.absent, [], s)

def hand (o : Outcome) (rs : List Record) (s : Session) : Reply :=
  match o with
  | .record r => (.fetched o, rs ++ [r], s)
  | o => (.fetched o, rs, s)

def publish (s : Session) (p : Nat) (id : UInt32) : Reply :=
  if s.channel.isAlive p then
    let r : Record := ⟨id, s.channel.made⟩
    let next := { s with channel := (s.channel.publish (.publish p id)).1, live := s.live + 1 }
    if s.channel.accepts then (.accepted, [], next) else (.rejected r, [r], next)
  else s.absent

def publishing (s : Session) (p : Nat) (x : Publishing) (result : Result) : Reply :=
  if s.channel.isAlive p then (result, [], { s with channel := (s.channel.publish x).1 })
  else s.absent

def fetch (s : Session) : Reply :=
  match s.channel.enter with
  | (c, some o, rs) => hand o rs { s with channel := c }
  | (c, none, rs) => match c.receive? with
    | some (c, o, more) => hand o (rs ++ more) { s with channel := c }
    | none => (.blocked, rs, { s with channel := c })

def beginFetch (s : Session) : Reply :=
  let (c, answer?, rs) := s.channel.enter
  (.begun, rs, { s with channel := c, fetching := .begun answer? })

def close (s : Session) (result : Result) : Reply :=
  let (c, rs) := s.channel.close
  (result, rs, { s with channel := c, fetching := .gone })

def act (s : Session) : Step → Reply
  | .publish p id => s.publish p id
  | .fail p report => s.publishing p (.fail p report) .sent
  | .isStopped p => s.publishing p (.isStopped p) (.stopped s.channel.isStopped)
  | .clone p => s.publishing p (.clone p) (.publisher s.channel.publishers.length)
  | .finish p => s.publishing p (.finish p) .done
  | .start => match s.fetching with
    | .unstarted => (.started, [], { s with fetching := .ready, hasStopper := true })
    | _ => s.absent
  | .dropSource => match s.fetching with
    | .unstarted => s.close .done
    | _ => s.absent
  | .dropFetcher => match s.fetching with
    | .ready => s.close .done
    | _ => s.absent
  | .dropStopper =>
    if s.hasStopper then (.done, [], { s with hasStopper := false }) else s.absent
  | .stop =>
    if s.hasStopper then (.done, [], { s with channel := Feed.stop s.channel }) else s.absent
  | .fetch => match s.fetching with
    | .ready => s.fetch
    | _ => s.absent
  | .beginFetch => match s.fetching with
    | .ready => s.beginFetch
    | _ => s.absent
  | .endFetch => match s.fetching with
    | .begun (some o) => hand o [] { s with fetching := .ready }
    | .begun none => (.blocked, [], s)
    | _ => s.absent
  | .unknown => s.absent

/-- A fetch that was begun elsewhere ends as soon as it can. -/
def progress (s : Session) : List Record × Session :=
  match s.fetching with
  | .begun none => match s.channel.receive? with
    | some (c, o, rs) => (rs, { s with channel := c, fetching := .begun (some o) })
    | none => ([], s)
  | _ => ([], s)

def step (s : Session) (x : Step) : Reply :=
  let (result, rs, s) := s.act x
  let (more, s) := s.progress
  let rs := rs ++ more
  (result, rs, { s with live := s.live - rs.length })

/-- The result of each step, the records it released, and the number of live records after it. -/
def answers (s : Session) : List Step → List (Result × List Record × Int)
  | [] => []
  | x :: rest =>
    let (result, rs, s) := s.step x
    (result, rs, s.live) :: s.answers rest

end Session

end Handoff.Channel
