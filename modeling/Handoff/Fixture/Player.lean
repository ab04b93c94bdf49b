import Handoff.Fixture.Entry
import Handoff.Script

/-! A script played by hand, with its journal, its ledger and the name of the first thread. -/
namespace Handoff.Fixture

def panicText : String := "scripted upstream panic"

def startFault : Report := ⟨"scripted upstream refused to start", []⟩

structure Player where
  script : Script
  hasFetcher : Bool := true
  journal : List Entry := []
  ledger : Ledger := {}
  kept : List Record := []
  probe? : Option String := none
deriving DecidableEq, Repr

namespace Player

inductive Step where
  | fetch
  | fetchKeep
  | fetchOn (name? : Option String)
  | release (i : Nat)
  | stop
  | dropFetcher
  | unknown
deriving DecidableEq, Repr

inductive Result where
  | fetched (o : Outcome)
  | done
  | absent
deriving DecidableEq, Repr

def mainThread : String := "main"

/-- One fetch on a thread, whose name is noted if it is the first that has one. -/
def fetch (p : Player) (name? : Option String) : Outcome × Player :=
  let (s, o) := p.script.play
  (o, { p with
    script := s
    journal := p.journal ++ .fetchEnter :: (Entry.ofOutcome? o).toList
    ledger := match o with
      | .record _ => p.ledger.create
      | _ => p.ledger
    probe? := p.probe?.orElse fun _ => name? })

def fetchOnce (p : Player) (name? : Option String) : Result × Player :=
  let (o, p) := p.fetch name?
  (.fetched o, match o with
    | .record r => { p with ledger := p.ledger.drop r }
    | _ => p)

def fetchKeep (p : Player) : Result × Player :=
  let (o, p) := p.fetch mainThread
  (.fetched o, match o with
    | .record r => { p with kept := p.kept ++ [r] }
    | _ => p)

def stop (p : Player) : Player :=
  if p.script.isStopped then p
  else { p with
    script := { p.script with isStopped := true }, journal := p.journal ++ [.stopRequested] }

def step (p : Player) : Step → Result × Player
  | .fetch => if p.hasFetcher then p.fetchOnce mainThread else (.absent, p)
  | .fetchKeep => if p.hasFetcher then p.fetchKeep else (.absent, p)
  | .fetchOn name? => if p.hasFetcher then p.fetchOnce name? else (.absent, p)
  | .release i => match p.kept[i]? with
    | some r => (.done, { p with kept := p.kept.eraseIdx i, ledger := p.ledger.drop r })
    | none => (.absent, p)
  | .stop => (.done, p.stop)
  | .dropFetcher =>
    if p.hasFetcher then
      (.done, { p with hasFetcher := false, journal := p.journal ++ [.fetcherDropped] })
    else (.absent, p)
  | .unknown => (.absent, p)

def play (p : Player) : List Step → List (Result × Ledger) × Player
  | [] => ([], p)
  | x :: rest =>
    let (result, p) := p.step x
    let (more, last) := p.play rest
    ((result, p.ledger) :: more, last)

end Player

end Handoff.Fixture
