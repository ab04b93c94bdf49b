import Handoff.Bridge
import Handoff.Config

/-! Making a bridge: the source is started, a generation is taken, a thread is asked for. -/
namespace Handoff

inductive StartFault where
  | refused (report : Report)
  | panicked (p : Payload)
deriving DecidableEq, Repr

structure Source (σ : Type) where
  feed : σ
  fault? : Option StartFault := none
deriving DecidableEq, Repr

/-- How the creation of a bridge is left without one. Outside of a task set the panic has no
text. -/
inductive CreateFailure where
  | refused (e : BridgeError)
  | panicked (p : Payload)
  | outside
deriving DecidableEq, Repr

/-- What a creation leaves: the bridge or its remains, and the generations taken so far. -/
structure Creation (σ : Type) where
  bridge : Bridge σ
  failure? : Option CreateFailure := none
  taken : UInt32
deriving DecidableEq, Repr

namespace Creation

variable {σ : Type} [Feed σ]

/-- The remains of a creation: a task that gets neither records nor a context. -/
def remains (l : Link σ) (failure : CreateFailure) (generation taken : UInt32) : Creation σ where
  bridge :=
    { generation
      threadName := ""
      link := { l with queue := l.queue.dropSender }
      producer := none
      consumer := { context := .lost } }
  failure? := some failure
  taken

/-- The fetcher is dropped together with the thread that was not started. -/
def retire (l : Link σ) (panic? : Option Payload) : Link σ :=
  let (f, rs) := Feed.retire l.feed
  l.fed f (Event.releasing rs ++ [.fetcherDropped l.liveness panic?])

/-- A started source whose thread is refused is asked to stop, unless its fetcher's end panics. -/
def refuse (l : Link σ) (cause : String) (generation : UInt32) : Creation σ :=
  let retired := retire l (Feed.retirePanic? l.feed)
  match Feed.retirePanic? l.feed with
  | some p => remains retired (.panicked p) generation generation
  | none =>
    remains retired.raise.wake (.refused (.threadRefused cause)) generation generation

def spawn (l : Link σ) (config : ThreadRequest) (generation : UInt32) : Creation σ :=
  match config.spawnFault? generation with
  | some .badName =>
    remains (retire l none) (.panicked (.made SpawnFault.nameText)) generation generation
  | some (.refused cause) => refuse l cause generation
  | none =>
    { bridge :=
        { generation
          threadName := config.threadName generation
          link := l.note [.created]
          producer := some {}
          consumer := { context := .sent generation } }
      taken := generation }

end Creation

namespace Source

variable {σ : Type} [Feed σ]

/-- Creates a bridge inside of a task set; only a source that starts takes a generation. -/
def create (s : Source σ) (config : ThreadRequest) (taken : UInt32) (trace : List Event) :
    Creation σ :=
  let l : Link σ := .start s.feed (trace ++ [.starting])
  match s.fault? with
  | some (.refused report) =>
    let (f, rs) := Feed.retire s.feed
    .remains (l.fed f (Event.releasing rs)) (.refused (.sourceRefused report))
      taken taken
  | some (.panicked p) =>
    let (f, rs) := Feed.retire s.feed
    .remains (l.fed f (Event.releasing rs)) (.panicked p) taken taken
  | none => .spawn l config (nextGeneration taken)

/-- Outside of a task set the task is refused: its handler goes first, then the source. -/
def createOutside (s : Source σ) (taken : UInt32) (trace : List Event) : Creation σ :=
  let (f, rs) := Feed.retire s.feed
  let l : Link σ := .start f (trace ++ .handlerDropped :: Event.releasing rs)
  let c : Creation σ := .remains l .outside taken taken
  { c with bridge := { c.bridge with consumer := { place := .gone, context := .lost } } }

end Source

end Handoff
