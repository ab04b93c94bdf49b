import Handoff.Proofs.PlainRuns
import Handoff.Proofs.Progress

/-! The two sides of a bridge do what the plain loop does, in whatever order they step. -/
namespace Handoff

variable {σ : Type}

namespace Link

def shown (l : Link σ) : List Event := l.trace.filter Event.isShown

@[simp] theorem shown_note (l : Link σ) (es : List Event) :
    (l.note es).shown = l.shown ++ es.filter Event.isShown := by
  simp [shown]

@[simp] theorem shown_fed (l : Link σ) (f : σ) (es : List Event) :
    (l.fed f es).shown = l.shown ++ es.filter Event.isShown := by
  simp [shown]

theorem shown_mono {l l' : Link σ} (hl : l.trace <+: l'.trace) : l.shown <+: l'.shown :=
  hl.filter _

end Link

@[simp] theorem Event.filter_isShown_releasing (rs : List Record) :
    (releasing rs).filter isShown = releasing rs := by
  simp [releasing, isShown]

theorem Event.isShown_of_isPublishing {e : Event} (h : e.isPublishing) : e.isShown := by
  cases e <;> first | rfl | cases h

theorem Link.shown_publish [Feed σ] (l : Link σ) (x : Publishing) :
    (l.publish x).shown = l.shown ++ (Feed.publish x l.feed).2 := by
  have hes : (Feed.publish x l.feed).2.filter Event.isShown = (Feed.publish x l.feed).2 :=
    List.filter_eq_self.mpr fun e he =>
      Event.isShown_of_isPublishing (Feed.publish_notes x l.feed e he)
  simp [publish, hes]

@[simp] theorem Exit.filter_isShown_farewell (exit : Exit) (n : Nat) :
    (exit.farewell n).filter Event.isShown = [] := by
  cases exit <;> rfl

@[simp] def Consumer.Place.hasHandler : Consumer.Place → Bool
  | leaving parts => parts.contains .handler
  | gone => false
  | fresh | receiving | handling .. | returning _ | unwinding _ | awaiting | joining _
  | resolving _ => true

theorem Consumer.Place.hasHandler_of_isLeaving {place : Consumer.Place}
    (hp : place.isLeaving = false) : place.hasHandler := by
  cases place <;> first | rfl | cases hp

namespace PlainLoop

/-- The plain loop where a bridge stands. -/
def view (p : Producer) (c : Consumer) (l : Link σ) : PlainLoop σ where
  feed := l.feed
  delivered := p.delivered
  kept := c.kept
  trace := l.shown

variable [Feed σ]

/-- What the plain loop goes on to do, at most up to its fetch number `fuel`, from where a bridge
stands. -/
def outlook (h : Handler) (g : UInt32) (p : Producer) (c : Consumer) (l : Link σ) (fuel : Nat) :
    Option Completion × PlainLoop σ :=
  let s := view p c l
  match p.place with
  | .starting | .fetching => s.run h g fuel
  | .waiting => afterFetch h g (fun s => s.run h g fuel) s.receive
  | .pushing r => (s.handle h r).run h g fuel
  | .calling _ =>
    match c.place with
    | .handling call isHeld acts =>
      (finishHandling call.record (acts.foldl (act call.record) (s, isHeld))).run h g fuel
    | .returning _ => { s with delivered := s.delivered + 1 }.run h g fuel
    | _ => match l.queue.calls with
      | [] => { s with delivered := s.delivered + 1 }.run h g fuel
      | call :: _ => (s.handle h call.record).run h g fuel
  | .retiring exit => s.finish g exit
  | .marking exit | .releasing exit | .ended exit =>
    (some (.ofExit s.delivered g exit), if c.place.hasHandler then s.dropHandler else s)
  | .aborted _ => (none, s)

variable {h : Handler} {g : UInt32} {p p' : Producer} {c c' : Consumer} {l l' : Link σ}

theorem outlook_afterFetch (o : Outcome) (fuel : Nat) :
    outlook h g { p with place := .afterFetch o } c l fuel =
      afterFetch h g (fun s => s.run h g fuel) (some o, view p c l) := by
  cases o <;> rfl

/-- The consumer holds no call; the one that the producer waits for is queued or answered. -/
theorem outlook_calling {ticket : Nat} (hp : p.place = .calling ticket)
    (hc : c.place.ticket? = none) (fuel : Nat) :
    outlook h g p c l fuel = match l.queue.calls with
      | [] => { view p c l with delivered := p.delivered + 1 }.run h g fuel
      | call :: _ => ((view p c l).handle h call.record).run h g fuel := by
  cases hplace : c.place <;> simp_all [outlook] <;> rfl

theorem outlook_produce (hi : Steady g p c l) (hs : p.Step l p' l') :
    ∃ d, (Tally.ofTrace l'.trace).entries = (Tally.ofTrace l.trace).entries + d ∧
      ∀ fuel, outlook h g p c l (fuel + d) = outlook h g p' c l' fuel := by
  have haligned := hi.aligned
  have hleaving := hi.leaving_of_produce hs
  cases hs with
  | start hp | mark hp | release hp =>
    exact ⟨0, by simp, fun fuel => by simp [outlook, hp, view, Link.shown, Event.isShown]⟩
  | enterWaiting hp hf =>
    refine ⟨1, by simp, fun fuel => ?_⟩
    simp only [outlook, hp, run, fetch, view, hf]
    simp [note, Link.shown, List.filter_cons, Event.isShown]
  | enterAnswered hp hf =>
    refine ⟨1, by simp, fun fuel => ?_⟩
    rw [outlook_afterFetch]
    simp only [outlook, hp, run, fetch, view, hf]
    simp [note, List.filter_cons, Event.isShown]
  | receive hp hf =>
    refine ⟨0, by simp, fun fuel => ?_⟩
    rw [outlook_afterFetch]
    simp only [outlook, hp, receive, view, hf]
    simp [note, List.filter_cons, Event.isShown]
  | pushRefused hp hq =>
    have hr := CallQueue.push?_eq_none_iff.mp hq
    simp [hi.served.receiver hleaving] at hr
  | push hp hq =>
    cases CallQueue.push?_eq_some hq
    simp only [Producer.Aligned, hp] at haligned
    refine ⟨0, rfl, fun fuel => ?_⟩
    refine Eq.trans ?_ (outlook_calling rfl haligned.1.ticket fuel).symm
    simp only [outlook, hp, haligned.1.calls]
    rfl
  | collectHandled hp hq =>
    simp only [Producer.Aligned, hp] at haligned
    obtain ⟨hc, hcalls, rfl, -⟩ := haligned.1.collect hq
    refine ⟨0, rfl, fun fuel => ?_⟩
    rw [outlook_calling hp hc, hcalls]
    rfl
  | collectFailed hp hq => exact (hi.served.answers _ _ (CallQueue.mem_answers_of_collect? hq)).elim
  | @retire exit f rs hp hf =>
    have hlive : l.liveness = .running := by rw [hi.tidy.liveness, hp]; rfl
    refine ⟨0, by simp, fun fuel => ?_⟩
    simp only [outlook, hp, finish, view, hf, Consumer.Place.hasHandler_of_isLeaving hleaving]
    simp [note, hlive, List.filter_cons, Event.isShown]

/-- A step of the consumer in which no call has a part, and which leaves the handler where it is. -/
theorem outlook_congr (hv : view p c' l' = view p c l) (hc : c.place.ticket? = none)
    (hc' : c'.place.ticket? = none) (hq : l'.queue.calls = l.queue.calls)
    (hh : c'.place.hasHandler = c.place.hasHandler) (fuel : Nat) :
    outlook h g p c l fuel = outlook h g p c' l' fuel := by
  cases hp : p.place with
  | calling ticket => rw [outlook_calling hp hc, outlook_calling hp hc', hv, hq]
  | _ => simp only [outlook, hp, hv, hh]

/-- A handler does to the bridge what it does to the plain loop. -/
theorem foldl_act_view (c : Consumer) (l : Link σ) (call : Call) (isHeld : Bool) (rest : List Act)
    {a : Act} (ha : ∀ x, a ≠ .panic x) :
    ∃ isHeld' acts, (c.act l call isHeld rest a).1.place = .handling call isHeld' acts ∧
      acts.foldl (act call.record)
          (view p (c.act l call isHeld rest a).1 (c.act l call isHeld rest a).2, isHeld') =
        (a :: rest).foldl (act call.record) (view p c l, isHeld) := by
  cases a with
  | panic x => exact (ha x rfl).elim
  | stop =>
    exact ⟨_, _, rfl, by simp [Consumer.act, view, act, note, Link.raise, Feed.stop,
      List.filter_cons, Event.isShown]⟩
  | finishStop => exact ⟨_, _, rfl, by simp [Consumer.act, view, act, Link.wake, Link.shown]⟩
  | keep => cases isHeld <;> exact ⟨_, _, rfl, by simp [Consumer.act, view, act]⟩
  | setAside => exact ⟨_, _, rfl, by simp [Consumer.act, view, act]⟩
  | releaseKept => exact ⟨_, _, rfl, by simp [Consumer.act, view, act, note]⟩
  | publish x =>
    refine ⟨_, _, rfl, ?_⟩
    simp only [Consumer.act, view, Link.shown_publish]
    rfl

theorem outlook_consume (hi : Steady g p c l)
    (hn : ∀ ticket, p.place = .calling ticket → c.place.ticket? = none → l.queue.calls ≠ [] →
      c.invocations = p.delivered)
    {exit? : Option (Exit × Nat)} (hs : c.Step h exit? l c' l') (fuel : Nat) :
    outlook h g p c l fuel = outlook h g p c' l' fuel := by
  have hattended := hi.attended
  cases hs with
  | begin hp | drained hp _ _ | join hp _ | giveUp hp _ | resolve hp | leave hp =>
    refine outlook_congr ?_ ?_ ?_ ?_ ?_ fuel <;> simp [hp, view]
  | judge hp he =>
    refine outlook_congr ?_ ?_ ?_ ?_ ?_ fuel <;> simp [hp, view, Event.isShown]
  | @take call q hp hq =>
    obtain ⟨rest, hcalls, rfl⟩ := CallQueue.take?_eq_some hq
    obtain ⟨ticket, hpc, -⟩ := hi.calling (.inr (by simp [hcalls]))
    rw [outlook_calling hpc (by simp [hp]), hcalls]
    simp only [outlook, hpc, handle, hn ticket hpc (by simp [hp]) (by simp [hcalls])]
    simp [view, note, Link.shown, List.filter_cons, Event.isShown]
  | @act call isHeld a rest hp =>
    obtain ⟨ticket, hpc, -⟩ := hi.calling (.inl (by simp [hp]))
    simp only [Consumer.Attended, hp] at hattended
    have ha : ∀ x, a ≠ .panic x := fun x hx => hattended.1 x (by simp [hx])
    obtain ⟨isHeld', acts, hplace, hview⟩ := foldl_act_view (p := p) c l call isHeld rest ha
    simp only [outlook, hpc, hp, hplace, hview]
  | @finish call isHeld hp =>
    obtain ⟨ticket, hpc, -⟩ := hi.calling (.inl (by simp [hp]))
    simp only [outlook, hpc, hp, List.foldl_nil, finishHandling]
    cases isHeld <;> simp [view, note, Consumer.leftover, List.filter_cons, Event.isShown]
  | @answer ticket hp =>
    obtain ⟨ticket, hpc, hcalling⟩ := hi.calling (.inl (by simp [hp]))
    cases hcalling with
    | returning hc hcalls _ _ _ =>
      refine Eq.trans ?_ (outlook_calling hpc rfl fuel).symm
      simp only [outlook, hpc, hp, CallQueue.answer, hcalls]
      rfl
    | _ => simp_all
  | unwind hp => simp [Consumer.Attended, hp] at hattended
  | @drop part rest hp =>
    simp only [Consumer.Attended, hp] at hattended
    obtain ⟨hparts, he, hc, -⟩ := hattended
    have hcases : part = .handler ∧ rest = [.receiver] ∨ part = .receiver ∧ rest = [] := by
      simpa [List.suffix_cons_iff] using hparts
    rcases hcases with ⟨rfl, rfl⟩ | ⟨rfl, rfl⟩
    · obtain ⟨exit, he⟩ := Option.isSome_iff_exists.mp he
      simp only [outlook, Producer.place_of_exit? he, hp]
      simp [view, dropHandler, note, Consumer.dropPart, List.filter_cons, Event.isShown]
    · have hcalls := hi.calls he
      refine outlook_congr ?_ ?_ ?_ ?_ ?_ fuel <;>
        simp [hp, view, Consumer.dropPart, CallQueue.dropReceiver, hcalls, Event.releasing,
          Link.shown]

theorem shown_outlook (fuel : Nat) : l.shown <+: (outlook h g p c l fuel).2.trace := by
  have hhandle (r : Record) : l.shown <+: (((view p c l).handle h r).run h g fuel).2.trace :=
    (trace_handle h (view p c l) r).trans (trace_run _ fuel)
  have hdelivered : l.shown <+:
      ({ view p c l with delivered := p.delivered + 1 }.run h g fuel).2.trace :=
    trace_run { view p c l with delivered := p.delivered + 1 } fuel
  cases hp : p.place with
  | starting | fetching =>
    simp only [outlook, hp]
    exact trace_run (view p c l) fuel
  | waiting =>
    simp only [outlook, hp]
    exact (trace_receive (view p c l)).trans (trace_afterFetch (fun s => trace_run s fuel) _)
  | pushing r =>
    simp only [outlook, hp]
    exact hhandle r
  | retiring exit =>
    simp only [outlook, hp]
    exact trace_finish g (view p c l) exit
  | aborted e =>
    simp only [outlook, hp]
    exact List.prefix_rfl
  | marking exit | releasing exit | ended exit =>
    simp only [outlook, hp]
    split
    · exact trace_dropHandler (view p c l)
    · exact List.prefix_rfl
  | calling ticket =>
    cases hc : c.place with
    | handling call isHeld acts =>
      simp only [outlook, hp, hc]
      have hacts := trace_foldl_act call.record (view p c l, isHeld) acts
      exact hacts.trans ((trace_finishHandling _ _).trans (trace_run _ fuel))
    | returning _ =>
      simp only [outlook, hp, hc]
      exact hdelivered
    | _ =>
      simp only [outlook, hp, hc]
      split
      · exact hdelivered
      · exact hhandle _

end PlainLoop

variable [Feed σ] {h : Handler} {p p' : Producer} {c c' : Consumer} {l l' : Link σ}

/-- The consumer counts its invocations, and keeps nothing before the first one. -/
structure Consumer.Counted (c : Consumer) (y : Tally) : Prop where
  invocations : c.invocations = y.passed.length
  kept : c.invocations = 0 → c.kept = []
  handling : ∀ call isHeld acts, c.place = .handling call isHeld acts → 0 < c.invocations

theorem Producer.Step.passed (hs : p.Step l p' l') :
    (Tally.ofTrace l'.trace).passed = (Tally.ofTrace l.trace).passed := by
  cases hs <;> simp

theorem Consumer.Counted.consume {exit? : Option (Exit × Nat)}
    (hi : c.Counted (.ofTrace l.trace)) (hs : c.Step h exit? l c' l') :
    c'.Counted (.ofTrace l'.trace) := by
  obtain ⟨hn, hk, hc⟩ := hi
  cases hs with
  | take hp hq => exact ⟨by simp [hn], by simp, by simp⟩
  | @act call isHeld a rest hp =>
    have hpos := hc _ _ _ hp
    have hinv := (c.act_frame l call isHeld rest a).1
    rw [(c.act_aside l call isHeld rest a).tally]
    exact ⟨hinv.trans hn, fun hz => by omega, fun _ _ _ _ => hinv ▸ hpos⟩
  | @drop part rest hp =>
    cases part with
    | context =>
      obtain ⟨_, _, hdrop⟩ := c.dropContext_eq
      simp only [dropPart, hdrop]
      exact ⟨hn, hk, by simp⟩
    | handler => exact ⟨by simpa [dropPart] using hn, fun _ => rfl, by simp⟩
    | receiver => exact ⟨by simpa [dropPart] using hn, hk, by simp⟩
  | _ => exact ⟨by simpa using hn, hk, by simp⟩

theorem Bridge.invariant_counted (h : Handler) : Invariant h (fun _ => True)
    (fun _ c (l : Link σ) => c.Counted (.ofTrace l.trace)) where
  produce _ hi hs := ⟨hi.invocations.trans (by rw [hs.passed]), hi.kept, hi.handling⟩
  consume _ hi _ hs := hi.consume hs
  aside _ _ hi := by rwa [(Link.aside_outside _ _).tally]
  lose _ hi hs := by
    obtain ⟨-, parts, rfl⟩ := Consumer.lose?_eq_some hs
    exact ⟨hi.invocations, hi.kept, by simp⟩
  letGo _ hi := ⟨hi.invocations, hi.kept, hi.handling⟩

omit [Feed σ] in
theorem Bridge.Fresh.counted {g : UInt32} (hf : Fresh g p c l) :
    c.Counted (.ofTrace l.trace) :=
  ⟨by rw [hf.invocations, hf.tally]; rfl, fun _ => hf.kept, by simp [hf.place]⟩

/-- From where a bridge stands it goes on as the plain loop does from where that has started. -/
structure Mirrors (h : Handler) (g : UInt32) (s : PlainLoop σ) (p : Producer) (c : Consumer)
    (l : Link σ) : Prop where
  steady : Steady g p c l
  counted : c.Counted (.ofTrace l.trace)
  run : ∀ fuel, s.run h g (fuel + (Tally.ofTrace l.trace).entries) =
    PlainLoop.outlook h g p c l fuel
  behind : ∀ fuel < (Tally.ofTrace l.trace).entries, (s.run h g fuel).2.trace <+: l.shown

namespace Mirrors

variable {g : UInt32} {s : PlainLoop σ}

theorem produce (hi : Mirrors h g s p c l) (hs : p.Step l p' l') : Mirrors h g s p' c l' := by
  obtain ⟨d, he, hd⟩ := PlainLoop.outlook_produce (h := h) hi.steady hs
  refine ⟨hi.steady.produce hs, (Bridge.invariant_counted h).produce trivial hi.counted hs,
    fun fuel => ?_, fun fuel hlt => ?_⟩
  · rw [he, Nat.add_comm _ d, ← Nat.add_assoc, hi.run, hd]
  · have hshown := Link.shown_mono hs.trace_grows
    rcases Nat.lt_or_ge fuel (Tally.ofTrace l.trace).entries with hbefore | hge
    · exact (hi.behind fuel hbefore).trans hshown
    · -- Before he enters a fetch the producer has done all that the plain loop has.
      rcases hs.entries_or_rank with ⟨hp, heq⟩ | ⟨heq, -⟩
      · have hfuel : fuel = 0 + (Tally.ofTrace l.trace).entries := by omega
        rw [hfuel, hi.run 0]
        simp only [PlainLoop.outlook, hp]
        exact hshown
      · omega

theorem consume (hh : h.IsCalm) (hi : Mirrors h g s p c l)
    (hs : c.Step h (p.exit?.map fun exit => (exit, p.delivered)) l c' l') :
    Mirrors h g s p c' l' := by
  refine ⟨hi.steady.consume hh hs, hi.counted.consume hs, fun fuel => ?_, fun fuel hlt =>
    (hi.behind fuel (hs.frame.entries ▸ hlt)).trans (Link.shown_mono hs.frame.trace)⟩
  rw [hs.frame.entries, hi.run]
  refine PlainLoop.outlook_consume hi.steady (fun ticket hp hc hq => ?_) hs fuel
  obtain ⟨ticket', hp', hcalling⟩ := hi.steady.calling (.inr hq)
  cases hcalling with
  | queued _ _ _ hy hn => rw [hi.counted.invocations, hy.passed, hn]
  | _ => simp_all

end Mirrors

theorem Bridge.invariant_mirrors (hh : h.IsCalm) (g : UInt32) (s : PlainLoop σ) :
    Invariant h (fun label => label.isOfSides ∨ label = .wake ∧ ∀ f : σ, Feed.wake f = f)
      (Mirrors h g s) where
  produce _ hi hs := hi.produce hs
  consume _ hi _ hs := hi.consume hh hs
  aside {label _ _ _} ha hl hi := by
    rcases ha with ha | ⟨rfl, hw⟩
    · cases label <;> simp [Label.isOfSides, Label.isAside] at ha hl
    · simpa [Link.outside, Link.wake, hw] using hi
  lose ha := by simp [Label.isOfSides] at ha
  letGo ha := by simp [Label.isOfSides] at ha

end Handoff
