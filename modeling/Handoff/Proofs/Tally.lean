import Handoff.Link

/-! What the trace of a bridge tells of fetches, of handler invocations and of the fetcher's end. -/
namespace Handoff

@[simp] def Outcome.record? : Outcome → Option Record
  | record r => some r
  | endMarker | failed _ | panicked _ => none

@[simp] def Outcome.exit? : Outcome → Option Exit
  | record _ => none
  | endMarker => some .endOfStream
  | failed report => some (.failed report)
  | panicked p => some (.panicked p)

/-- Events that tell nothing of fetches, of invocations or of the fetcher's end. -/
@[simp] def Event.isQuiet : Event → Bool
  | fetching | fetched _ | handling _ | handled _ | fetcherDropped .. => false
  | _ => true

theorem Event.isQuiet_of_isPublishing {e : Event} (h : e.isPublishing) : e.isQuiet := by
  cases e <;> simp_all [isPublishing]

theorem Event.isQuiet_of_mem_releasing {rs : List Record} :
    ∀ e ∈ Event.releasing rs, e.isQuiet := by
  simp [releasing]

/-- A count of what happened so far; records and answers are listed in order. -/
structure Tally where
  entries : Nat := 0
  outcomes : List Outcome := []
  passed : List Record := []
  returned : List Record := []
  /-- The drops of a fetcher, each with the panic it raised. -/
  retirements : List (Option Payload) := []
deriving DecidableEq, Repr

namespace Tally

@[simp] def add (y : Tally) : Event → Tally
  | .fetching => { y with entries := y.entries + 1 }
  | .fetched o => { y with outcomes := y.outcomes ++ [o] }
  | .handling r => { y with passed := y.passed ++ [r] }
  | .handled r => { y with returned := y.returned ++ [r] }
  | .fetcherDropped _ panic? => { y with retirements := y.retirements ++ [panic?] }
  | _ => y

def ofTrace (es : List Event) : Tally := es.foldl add {}

def fetched (y : Tally) : List Record := y.outcomes.filterMap Outcome.record?

theorem add_of_isQuiet (y : Tally) {e : Event} (h : e.isQuiet) : y.add e = y := by
  cases e <;> simp_all

theorem foldl_add_of_isQuiet (y : Tally) {es : List Event} (h : ∀ e ∈ es, e.isQuiet) :
    es.foldl add y = y := by
  induction es with
  | nil => rfl
  | cons e rest ih =>
    rw [List.foldl_cons, add_of_isQuiet y (h e List.mem_cons_self)]
    exact ih fun e he => h e (List.mem_cons_of_mem _ he)

@[simp] theorem ofTrace_append (es more : List Event) :
    ofTrace (es ++ more) = more.foldl add (ofTrace es) := List.foldl_append

theorem ofTrace_of_isQuiet {es : List Event} (h : ∀ e ∈ es, e.isQuiet) : ofTrace es = {} :=
  foldl_add_of_isQuiet {} h

theorem entries_foldl_add (y : Tally) (es : List Event) :
    (es.foldl add y).entries = y.entries + es.count .fetching := by
  induction es generalizing y with
  | nil => rfl
  | cons e rest ih =>
    rw [List.foldl_cons, ih, List.count_cons]
    cases e with
    | fetching => simp [Nat.add_assoc, Nat.add_comm 1]
    | _ => simp

theorem entries_ofTrace (es : List Event) : (ofTrace es).entries = es.count .fetching :=
  (entries_foldl_add {} es).trans (Nat.zero_add _)

theorem entries_mono {es more : List Event} (hp : es <+: more) :
    (ofTrace es).entries ≤ (ofTrace more).entries := by
  rw [entries_ofTrace, entries_ofTrace]
  exact hp.sublist.count_le _

@[simp] theorem foldl_add_releasing (y : Tally) (rs : List Record) :
    (Event.releasing rs).foldl add y = y :=
  foldl_add_of_isQuiet y Event.isQuiet_of_mem_releasing

@[simp] theorem foldl_add_farewell (y : Tally) (n : Nat) (exit : Exit) :
    (exit.farewell n).foldl add y = y := by
  cases exit <;> rfl

end Tally

variable {σ : Type}

/-- A change of the link in which neither side has a part. -/
structure Link.Aside (l l' : Link σ) : Prop where
  queue : l'.queue = l.queue
  liveness : l'.liveness = l.liveness
  trace : ∃ es : List Event, (∀ e ∈ es, e.isQuiet) ∧ l'.trace = l.trace ++ es

namespace Link

theorem aside_refl (l : Link σ) : l.Aside l := ⟨rfl, rfl, [], by simp, by simp⟩

theorem aside_fed (l : Link σ) (f : σ) {es : List Event} (h : ∀ e ∈ es, e.isQuiet) :
    l.Aside (l.fed f es) := ⟨rfl, rfl, es, h, trace_fed l f es⟩

theorem aside_note (l : Link σ) {es : List Event} (h : ∀ e ∈ es, e.isQuiet) :
    l.Aside (l.note es) := ⟨rfl, rfl, es, h, trace_note l es⟩

theorem Aside.trace_grows {l l' : Link σ} (h : l.Aside l') : l.trace <+: l'.trace := by
  obtain ⟨es, -, ht⟩ := h.trace
  exact ht ▸ List.prefix_append _ _

theorem Aside.tally {l l' : Link σ} (h : l.Aside l') :
    Tally.ofTrace l'.trace = Tally.ofTrace l.trace := by
  obtain ⟨es, hes, ht⟩ := h.trace
  rw [ht, Tally.ofTrace_append, Tally.foldl_add_of_isQuiet _ hes]

variable [Feed σ]

theorem aside_raise (l : Link σ) : l.Aside l.raise := l.aside_fed _ (by simp)

theorem aside_wake (l : Link σ) : l.Aside l.wake :=
  ⟨rfl, rfl, [], by simp, (List.append_nil _).symm⟩

theorem aside_publish (l : Link σ) (x : Publishing) : l.Aside (l.publish x) :=
  l.aside_fed _ fun e he => Event.isQuiet_of_isPublishing (Feed.publish_notes x l.feed e he)

end Link

end Handoff
