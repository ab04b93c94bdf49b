import Handoff.CallQueue
import Handoff.Feed

/-! What the two sides of a bridge share. -/
namespace Handoff

/-- The source, the call queue, the producer's liveness, and what happened so far, newest first. -/
structure Link (σ : Type) where
  feed : σ
  queue : CallQueue := {}
  liveness : Liveness := .running
  past : List Event := []
deriving DecidableEq, Repr

namespace Link

variable {σ : Type}

def start (f : σ) (es : List Event) : Link σ := { feed := f, past := es.reverse }

def trace (l : Link σ) : List Event := l.past.reverse

def note (l : Link σ) (es : List Event) : Link σ := { l with past := es.reverse ++ l.past }

/-- The source has changed, and this was noted. -/
def fed (l : Link σ) (f : σ) (es : List Event) : Link σ := { l.note es with feed := f }

@[simp] theorem trace_start (f : σ) (es : List Event) : (start f es).trace = es := by
  simp [start, trace]

@[simp] theorem trace_note (l : Link σ) (es : List Event) :
    (l.note es).trace = l.trace ++ es := by
  simp [note, trace]

@[simp] theorem trace_fed (l : Link σ) (f : σ) (es : List Event) :
    (l.fed f es).trace = l.trace ++ es := by
  simp [fed, note, trace]

@[simp] theorem reverse_past (l : Link σ) : l.past.reverse = l.trace := rfl

@[simp] theorem trace_mk (f : σ) (q : CallQueue) (v : Liveness) (past : List Event) :
    trace ⟨f, q, v, past⟩ = past.reverse := rfl

@[simp] theorem past_note (l : Link σ) (es : List Event) :
    (l.note es).past = es.reverse ++ l.past := rfl

@[simp] theorem queue_note (l : Link σ) (es : List Event) : (l.note es).queue = l.queue := rfl

@[simp] theorem feed_note (l : Link σ) (es : List Event) : (l.note es).feed = l.feed := rfl

@[simp] theorem liveness_note (l : Link σ) (es : List Event) :
    (l.note es).liveness = l.liveness := rfl

@[simp] theorem queue_fed (l : Link σ) (f : σ) (es : List Event) :
    (l.fed f es).queue = l.queue := rfl

@[simp] theorem feed_fed (l : Link σ) (f : σ) (es : List Event) : (l.fed f es).feed = f := rfl

@[simp] theorem liveness_fed (l : Link σ) (f : σ) (es : List Event) :
    (l.fed f es).liveness = l.liveness := rfl

variable [Feed σ]

def raise (l : Link σ) : Link σ := l.fed (Feed.raise l.feed) [.stopRequested]

def wake (l : Link σ) : Link σ := { l with feed := Feed.wake l.feed }

def publish (l : Link σ) (x : Publishing) : Link σ :=
  let (f, es) := Feed.publish x l.feed
  l.fed f es

end Link

end Handoff
