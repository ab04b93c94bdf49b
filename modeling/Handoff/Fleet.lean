import Handoff.Usage

/-! Several bridges side by side, whose steps may come in any order. -/
namespace Handoff

abbrev Fleet (σ : Type) := List (Usage σ × Creation σ)

namespace Fleet

variable {σ : Type} [Feed σ]

def begin (taken : UInt32) : List (Usage σ) → Fleet σ
  | [] => []
  | u :: rest =>
    let c := u.begin taken
    (u, c) :: begin c.taken rest

def hasDied (f : Fleet σ) : Bool := f.any fun (_, c) => c.bridge.abort?.isSome

/-- One step of one bridge leaves all others alone; in a dead process there is none. -/
def step? (f : Fleet σ) (i : Nat) (label : Bridge.Label) : Option (Fleet σ) :=
  if f.hasDied then none
  else do
    let (u, c) ← f[i]?
    let b ← c.bridge.step? u.handler label
    pure (f.set i (u, { c with bridge := b }))

def run? (f : Fleet σ) : List (Nat × Bridge.Label) → Option (Fleet σ)
  | [] => some f
  | (i, label) :: rest => (f.step? i label).bind fun next => next.run? rest

def advance? (f : Fleet σ) (i : Nat) : Option (Fleet σ) :=
  (f.step? i .consume).orElse fun _ => f.step? i .produce

def round (f : Fleet σ) : Fleet σ :=
  (List.range f.length).foldl (fun f i => (f.advance? i).getD f) f

def isAtRest (f : Fleet σ) : Bool := (List.range f.length).all fun i => (f.advance? i).isNone

/-- At most `fuel` rounds, until no bridge can go on. -/
def settle (f : Fleet σ) : Nat → Fleet σ
  | 0 => f
  | fuel + 1 => if f.isAtRest then f else f.round.settle fuel

def conclude (f : Fleet σ) : List Account :=
  if f.hasDied then f.map fun (u, c) => u.account c c.bridge
  else f.map fun (u, c) => u.conclude c c.bridge

def runTogether (taken : UInt32) (us : List (Usage σ)) : List Account :=
  ((begin taken us).settle stepLimit).conclude

end Fleet

end Handoff
