import Handoff.Fixture.Player
import Handoff.Usage

/-! A bridge over a script whose journal and ledger are kept by the fixtures. -/
namespace Handoff.Fixture

structure Playback where
  script : Script
  failsToStart : Bool := false
  config : ThreadRequest := {}
  stopAt : List UInt32 := []
  keep : List UInt32 := []
deriving DecidableEq, Repr

namespace Playback

/-- The handler requests a stop at some ids and gives some records away. -/
def handler (p : Playback) : Handler := fun _ r =>
  (if r.id ∈ p.stopAt then [.stop] else []) ++ (if r.id ∈ p.keep then [.setAside] else [])

def usage (p : Playback) : Usage Script where
  source :=
    { feed := p.script
      fault? := if p.failsToStart then some (.refused startFault) else none }
  style := .script
  config := p.config
  handler := p.handler

structure Report where
  account : Account
  journal : List Entry
  ledger : Ledger
  ledgerAfter : Ledger
deriving DecidableEq, Repr

def run (p : Playback) (taken : UInt32) : Playback.Report :=
  let u := p.usage
  let c := u.begin taken
  let b := c.bridge.settle u.handler stepLimit
  let a := u.conclude c b
  let l := Ledger.ofTrace a.trace
  { account := a, journal := Entry.ofTrace a.trace, ledger := l
    ledgerAfter := l.dropAll b.consumer.aside }

end Playback

end Handoff.Fixture
