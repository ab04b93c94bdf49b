import Handoff.PlainLoop

/-! The trace of a plain loop only grows, and its end does not depend on the fuel. -/
namespace Handoff.PlainLoop

variable {σ : Type}

@[simp] theorem note_note (s : PlainLoop σ) (es more : List Event) :
    (s.note es).note more = s.note (es ++ more) := by
  simp [note]

theorem trace_note (s : PlainLoop σ) (es : List Event) : s.trace <+: (s.note es).trace :=
  List.prefix_append _ _

variable [Feed σ]

theorem trace_act (r : Record) (x : PlainLoop σ × Bool) (a : Act) :
    x.1.trace <+: (act r x a).1.trace := by
  rcases x with ⟨s, isHeld⟩
  cases a with
  | stop => exact trace_note _ _
  | releaseKept => exact trace_note _ _
  | publish x => exact trace_note _ _
  | keep => cases isHeld <;> exact List.prefix_rfl
  | finishStop | setAside | panic _ => exact List.prefix_rfl

theorem trace_foldl_act (r : Record) (x : PlainLoop σ × Bool) (acts : List Act) :
    x.1.trace <+: (acts.foldl (act r) x).1.trace := by
  induction acts generalizing x with
  | nil => exact List.prefix_rfl
  | cons a rest ih => exact (trace_act r x a).trans (ih _)

omit [Feed σ] in
theorem trace_finishHandling (r : Record) (x : PlainLoop σ × Bool) :
    x.1.trace <+: (finishHandling r x).trace := trace_note _ _

theorem trace_handle (h : Handler) (s : PlainLoop σ) (r : Record) :
    s.trace <+: (s.handle h r).trace := by
  have hacts := trace_foldl_act r (s.note [.handling r], true) (h s.delivered r)
  exact (trace_note s _).trans (hacts.trans (trace_finishHandling r _))

theorem trace_receive (s : PlainLoop σ) : s.trace <+: s.receive.2.trace := by
  unfold receive
  split
  · exact List.prefix_rfl
  · exact trace_note _ _

theorem trace_fetch (s : PlainLoop σ) : s.trace <+: s.fetch.2.trace := by
  rcases hf : Feed.enter s.feed with ⟨f, _ | o, rs⟩
  · simp only [fetch, hf]
    exact (trace_note { s with feed := f } _).trans (trace_receive _)
  · simp only [fetch, hf, note_note]
    exact trace_note { s with feed := f } _

omit [Feed σ] in
theorem trace_dropHandler (s : PlainLoop σ) : s.trace <+: s.dropHandler.trace := trace_note _ _

theorem trace_finish (g : UInt32) (s : PlainLoop σ) (exit : Exit) :
    s.trace <+: (s.finish g exit).2.trace :=
  (trace_note _ _).trans (trace_dropHandler _)

section AfterFetch

variable {h : Handler} {g : UInt32} {goOn goOn' : PlainLoop σ → Option Completion × PlainLoop σ}

theorem trace_afterFetch (hg : ∀ s, s.trace <+: (goOn s).2.trace)
    (x : Option Outcome × PlainLoop σ) : x.2.trace <+: (afterFetch h g goOn x).2.trace := by
  rcases x with ⟨_ | o, s⟩
  · exact List.prefix_rfl
  · cases o with
    | record r => exact (trace_handle h s r).trans (hg _)
    | endMarker | failed _ | panicked _ => exact trace_finish g s _

theorem afterFetch_mono (hg : ∀ s, (goOn s).2.trace <+: (goOn' s).2.trace)
    (x : Option Outcome × PlainLoop σ) :
    (afterFetch h g goOn x).2.trace <+: (afterFetch h g goOn' x).2.trace := by
  rcases x with ⟨_ | o, s⟩
  · exact List.prefix_rfl
  · cases o with
    | record r => exact hg _
    | endMarker | failed _ | panicked _ => exact List.prefix_rfl

theorem afterFetch_of_isSome (hg : ∀ s, (goOn s).1.isSome → goOn' s = goOn s)
    {x : Option Outcome × PlainLoop σ} (hx : (afterFetch h g goOn x).1.isSome) :
    afterFetch h g goOn' x = afterFetch h g goOn x := by
  rcases x with ⟨_ | o, s⟩
  · rfl
  · cases o with
    | record r => exact hg _ hx
    | endMarker | failed _ | panicked _ => rfl

end AfterFetch

variable {h : Handler} {g : UInt32}

theorem trace_run (s : PlainLoop σ) (fuel : Nat) : s.trace <+: (s.run h g fuel).2.trace := by
  induction fuel generalizing s with
  | zero => exact List.prefix_rfl
  | succ fuel ih => exact (trace_fetch s).trans (trace_afterFetch ih _)

theorem run_mono (s : PlainLoop σ) {fuel fuel' : Nat} (hle : fuel ≤ fuel') :
    (s.run h g fuel).2.trace <+: (s.run h g fuel').2.trace := by
  induction fuel generalizing s fuel' with
  | zero => exact trace_run s fuel'
  | succ fuel ih =>
    cases fuel' with
    | zero => omega
    | succ fuel' => exact afterFetch_mono (fun s => ih s (by omega)) _

theorem run_of_isSome {s : PlainLoop σ} {fuel fuel' : Nat} (hle : fuel ≤ fuel')
    (hs : (s.run h g fuel).1.isSome) : s.run h g fuel' = s.run h g fuel := by
  induction fuel generalizing s fuel' with
  | zero => cases hs
  | succ fuel ih =>
    cases fuel' with
    | zero => omega
    | succ fuel' => exact afterFetch_of_isSome (fun s hs => ih (by omega) hs) hs

def Ends (h : Handler) (g : UInt32) (s : PlainLoop σ) (v : Completion) (t : PlainLoop σ) : Prop :=
  ∃ fuel, s.run h g fuel = (some v, t)

theorem Ends.unique {s t t' : PlainLoop σ} {v v' : Completion} (he : s.Ends h g v t)
    (he' : s.Ends h g v' t') : v = v' ∧ t = t' := by
  obtain ⟨fuel, hf⟩ := he
  obtain ⟨fuel', hf'⟩ := he'
  have hmax := run_of_isSome (Nat.le_max_left fuel fuel') (by simp [hf] : (s.run h g fuel).1.isSome)
  have hmax' :=
    run_of_isSome (Nat.le_max_right fuel fuel') (by simp [hf'] : (s.run h g fuel').1.isSome)
  rw [hmax, hf, hf', Prod.mk.injEq, Option.some.injEq] at hmax'
  exact hmax'

/-- Whatever the loop has done after some fetches, it has done at its end. -/
theorem Ends.trace {s t : PlainLoop σ} {v : Completion} (he : s.Ends h g v t) (fuel : Nat) :
    (s.run h g fuel).2.trace <+: t.trace := by
  obtain ⟨last, hf⟩ := he
  have hmax := run_of_isSome (Nat.le_max_left last fuel) (by simp [hf] : (s.run h g last).1.isSome)
  have hle := run_mono (h := h) (g := g) s (Nat.le_max_right last fuel)
  rwa [hmax, hf] at hle

end Handoff.PlainLoop
