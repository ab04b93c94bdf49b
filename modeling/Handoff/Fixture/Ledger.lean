import Handoff.Record

/-! Ledgers that count records and note the order in which they are released. -/
namespace Handoff.Fixture

structure Ledger where
  created : Nat := 0
  dropOrder : List UInt32 := []
deriving DecidableEq, Repr

namespace Ledger

def dropped (l : Ledger) : Nat := l.dropOrder.length

def live (l : Ledger) : Nat := l.created - l.dropped

def create (l : Ledger) : Ledger := { l with created := l.created + 1 }

def drop (l : Ledger) (r : Record) : Ledger := { l with dropOrder := l.dropOrder ++ [r.id] }

def dropAll (l : Ledger) (rs : List Record) : Ledger := rs.foldl drop l

end Ledger

/-- Two ledgers and the records made on them, each until it is dropped. -/
structure Ledgers where
  first : Ledger := {}
  second : Ledger := {}
  records : List (Option (Bool × Record)) := []
deriving DecidableEq, Repr

namespace Ledgers

inductive Step where
  | make (onSecond : Bool) (id : UInt32)
  | drop (i : Nat)
  | unknown
deriving DecidableEq, Repr

inductive Result where
  | made (r : Record)
  | done
  | absent
deriving DecidableEq, Repr

def onLedger (s : Ledgers) (second : Bool) (f : Ledger → Ledger) : Ledgers :=
  if second then { s with second := f s.second } else { s with first := f s.first }

def step (s : Ledgers) : Step → Result × Ledgers
  | .make second id =>
    let r : Record := ⟨id, s.records.length⟩
    (.made r, { s.onLedger second .create with records := s.records ++ [some (second, r)] })
  | .drop i => match s.records[i]? with
    | some (some (second, r)) =>
      (.done, { s.onLedger second (·.drop r) with records := s.records.set i none })
    | _ => (.absent, s)
  | .unknown => (.absent, s)

def answers (s : Ledgers) : List Step → List (Result × Ledger × Ledger)
  | [] => []
  | x :: rest =>
    let (result, s) := s.step x
    (result, s.first, s.second) :: s.answers rest

end Ledgers

end Handoff.Fixture
