import Handoff.Proofs.Refinement

/-! Every interleaving of the two sides of a bridge tells the story of the plain loop. -/
namespace Handoff

namespace Tally

theorem ofTrace_filter_isShown (es : List Event) :
    ofTrace (es.filter Event.isShown) = ofTrace es := by
  rw [ofTrace, ofTrace, List.foldl_filter]
  congr 1
  funext y e
  cases e <;> rfl

end Tally

variable {σ : Type} [Feed σ] {h : Handler} {g : UInt32} {p p' : Producer} {c c' : Consumer}
  {l l' : Link σ}

/-- Before the first fetch neither side has done anything. -/
structure Early (p : Producer) (c : Consumer) (l : Link σ) : Prop where
  producer : p.place = .starting ∨ p.place = .fetching
  delivered : p.delivered = 0
  consumer : c.place = .fresh ∨ c.place = .receiving
  calls : l.queue.calls = []
  sender : l.queue.hasSender
  kept : c.kept = []

omit [Feed σ] in
theorem Steady.early (hi : Steady g p c l) (hc : c.Counted (.ofTrace l.trace))
    (hn : .fetching ∉ l.trace) : Early p c l := by
  have hentries := (Tally.entries_ofTrace l.trace).trans (List.count_eq_zero_of_not_mem hn)
  have haligned := hi.aligned
  have hplace : p.place = .starting ∨ p.place = .fetching := by
    cases hp : p.place <;> simp [Producer.Aligned, hp, hentries] at haligned ⊢
  have hidle : Idle c.place l.queue ∧ (Tally.ofTrace l.trace).Settled ∧
      (Tally.ofTrace l.trace).returned.length = p.delivered ∧
      (Tally.ofTrace l.trace).entries = p.delivered := by
    rcases hplace with hp | hp <;> simpa only [Producer.Aligned, hp] using haligned
  obtain ⟨hidle, hy, hreturned, hdelivered⟩ := hidle
  have hexit : p.exit? = none := by rcases hplace with hp | hp <;> simp [Producer.exit?, hp]
  have hattended := hi.attended
  refine ⟨hplace, by omega, ?_, hidle.calls, by simp [hi.tidy.sender, hexit], hc.kept ?_⟩
  · have hclosing := hi.informed.closing
    have hticket := hidle.ticket
    cases hcp : c.place <;> simp_all [Consumer.Attended]
  · rw [hc.invocations, hy.passed, hreturned]
    omega

/-- The plain loop starts where a bridge stands before its first fetch. -/
theorem Mirrors.start (hi : Steady g p c l) (hc : c.Counted (.ofTrace l.trace))
    (hn : .fetching ∉ l.trace) : Mirrors h g (.start l) p c l := by
  have he := hi.early hc hn
  have hentries := (Tally.entries_ofTrace l.trace).trans (List.count_eq_zero_of_not_mem hn)
  refine ⟨hi, hc, fun fuel => ?_, fun fuel hlt => by omega⟩
  have hview : PlainLoop.view p c l = .start l := by
    simp [PlainLoop.view, PlainLoop.start, Link.shown, he.delivered, he.kept]
  rw [hentries, Nat.add_zero, ← hview]
  rcases he.producer with hp | hp <;> simp only [PlainLoop.outlook, hp]

namespace Link

theorem start_outside {l l' : Link σ} (hl : PlainLoop.start l = .start l') (label : Bridge.Label) :
    PlainLoop.start (l.outside label) = .start (l'.outside label) := by
  simp only [PlainLoop.start, PlainLoop.mk.injEq, true_and] at hl
  obtain ⟨hf, ht⟩ := hl
  cases label <;>
    simp [PlainLoop.start, outside, raise, wake, publish, hf, ht]

theorem start_foldl_outside {l l' : Link σ} (hl : PlainLoop.start l = .start l')
    (labels : List Bridge.Label) :
    PlainLoop.start (labels.foldl outside l) = .start (labels.foldl outside l') := by
  induction labels generalizing l l' with
  | nil => exact hl
  | cons label rest ih => exact ih (start_outside hl label)

end Link

namespace Bridge

theorem start_of_step {b b' : Bridge σ} {label : Label} (hb : b.Holds Early)
    (hl : label.isOfSides ∨ label.isAside) (hs : b.step? h label = some b')
    (hn : .fetching ∉ b'.link.trace) :
    PlainLoop.start b'.link = .start (b.link.outside label) := by
  obtain ⟨p, hp, hi⟩ := hb
  cases (step?_eq_some_iff.mp hs).2 with
  | produce hp' hside =>
    cases hp.symm.trans hp'
    have hplace := hi.producer
    cases hside with
    | start => simp [PlainLoop.start, Link.outside, Event.isShown]
    | enterWaiting | enterAnswered => simp at hn
    | _ => simp_all
  | consume hside =>
    have hplace := hi.consumer
    cases hside with
    | begin => rfl
    | take _ hq => simp [CallQueue.take?_eq_none_iff.mpr hi.calls] at hq
    | drained _ _ hsender => simp [hi.sender] at hsender
    | _ => simp_all
  | raise | wake | publish x => rfl
  | loseConsumer | letGo => simp [Label.isOfSides, Label.isAside] at hl

theorem start_of_run (hh : h.IsCalm) {labels : List Label} {b b' : Bridge σ}
    (hl : ∀ label ∈ labels, label.isOfSides ∨ label.isAside)
    (hb : b.Holds (fun p c l => Steady g p c l ∧ c.Counted (.ofTrace l.trace)))
    (hr : b.run? h labels = some b') (hn : .fetching ∉ b'.link.trace) :
    PlainLoop.start b'.link = .start (labels.foldl Link.outside b.link) := by
  induction labels generalizing b with
  | nil => cases hr; rfl
  | cons label rest ih =>
    obtain ⟨m, hs, hrest⟩ := Option.bind_eq_some_iff.mp hr
    have hlabel := hl label List.mem_cons_self
    have hkept : label ≠ .loseConsumer := by
      rintro rfl
      simp [Label.isOfSides, Label.isAside] at hlabel
    have hm := ((invariant_steady hh g).and (invariant_counted h)).step ⟨hkept, trivial⟩ hs hb
    have hnm : .fetching ∉ m.link.trace := fun he => hn ((trace_grows_of_run hrest).subset he)
    have hearly : b.Holds Early := by
      obtain ⟨p, hp, hi, hc⟩ := hb
      exact ⟨p, hp, hi.early hc fun he => hnm ((trace_grows_of_step hs).subset he)⟩
    rw [ih (fun l hm => hl l (List.mem_cons_of_mem _ hm)) hm hrest]
    exact Link.start_foldl_outside (start_of_step hearly hlabel hs hnm) rest

/-- A bridge that has come to rest, and the plain loop at its end. -/
structure Matches (g : UInt32) (v? : Option Completion) (b : Bridge σ) (s : PlainLoop σ) :
    Prop where
  producer : b.producer.isSome
  alive : b.abort? = none
  generation : b.generation = g
  completion : b.completion? = v?
  liveness : b.link.liveness = .terminated
  feed : b.link.feed = s.feed
  shown : b.link.shown = s.trace

namespace Matches

variable {v? : Option Completion} {b : Bridge σ} {s : PlainLoop σ}

omit [Feed σ] in
theorem note (hi : Matches g v? b s) {es : List Event} (hes : es.filter Event.isShown = es) :
    Matches g v? (b.note es) (s.note es) :=
  { hi with shown := by simp [Bridge.note, PlainLoop.note, hi.shown, hes] }

theorem stop_eq (hi : Matches g v? b s) : b.stop h = { b with link := b.link.raise.wake } := by
  have hraise : b.step? h .raise = some { b with link := b.link.raise, wakes := b.wakes + 1 } :=
    step?_eq_some_iff.mpr ⟨hi.alive, .raise hi.producer⟩
  have hwake : step? h { b with link := b.link.raise, wakes := b.wakes + 1 } .wake =
      some { b with link := b.link.raise.wake } :=
    step?_eq_some_iff.mpr ⟨hi.alive, .wake (Nat.succ_pos _)⟩
  simp [stop, run?, hraise, hwake]

theorem publish_eq (hi : Matches g v? b s) (x : Publishing) :
    (b.step? h (.publish x)).getD b = { b with link := b.link.publish x } := by
  rw [step?_eq_some_iff.mpr ⟨hi.alive, .publish x⟩, Option.getD_some]

theorem callerAct (hi : Matches g v? b s) (a : CallerAct) :
    Matches g v? (b.callerAct h a) (s.callerAct g a) := by
  cases a with
  | stop =>
    simp only [Bridge.callerAct, PlainLoop.callerAct, hi.stop_eq]
    exact { hi with
      feed := congrArg Feed.stop hi.feed
      shown := by
        simp [Link.raise, Link.wake, Link.shown, PlainLoop.note, ← hi.shown, List.filter_cons,
          Event.isShown] }
  | noteLiveness =>
    simp only [Bridge.callerAct, PlainLoop.callerAct, hi.liveness]
    exact hi.note rfl
  | noteGeneration =>
    simp only [Bridge.callerAct, PlainLoop.callerAct, hi.generation]
    exact hi.note rfl
  | publish x =>
    simp only [Bridge.callerAct, PlainLoop.callerAct, hi.publish_eq]
    exact { hi with
      feed := by simp [Link.publish, PlainLoop.note, hi.feed]
      shown := by simp [Link.shown_publish, PlainLoop.note, hi.feed, hi.shown] }

theorem callerActs (hi : Matches g v? b s) (acts : List CallerAct) :
    Matches g v? (b.callerActs h acts) (acts.foldl (PlainLoop.callerAct g) s) := by
  induction acts generalizing b s with
  | nil => exact hi
  | cons a rest ih => exact ih (hi.callerAct a)

theorem waitOver (hi : Matches g v? b s) (u : Usage σ) {c : Creation σ}
    (hc : c.failure? = none) : Matches g v? (u.waitOver c b) (s.waitOver g u.await) := by
  unfold Usage.waitOver PlainLoop.waitOver
  simp only [hc, Option.isSome_none, Bool.false_eq_true, if_false]
  cases u.await with
  | bridge | letGo => exact hi.note rfl
  | parts => exact (hi.callerAct .stop).note rfl
  | late => exact (hi.callerAct (h := u.handler) .noteLiveness).note rfl

theorem conclude (hi : Matches g v? b s) (u : Usage σ) {c : Creation σ}
    (hc : c.failure? = none) :
    (u.conclude c b).completion? = v? ∧
      (u.conclude c b).lines = Journal.lines u.style (s.conclude g u.await u.after).trace := by
  have hend := (hi.waitOver u hc).callerActs (h := u.handler) u.after
  simp only [Usage.conclude, hi.alive, Option.isSome_none, Bool.false_eq_true, if_false]
  refine ⟨hend.completion, ?_⟩
  rw [PlainLoop.conclude, ← hend.shown, Link.shown, Journal.lines_filter_isShown]
  rfl

end Matches

end Bridge

namespace Consumer

/-- Whether the caller waits for the completion; one that he does not wait for is never sent. -/
structure Awaited (isHeld : Bool) (c : Consumer) : Prop where
  held : c.signal.isHeld = isHeld
  value : isHeld = false → c.signal.value = none

theorem Awaited.consume {isHeld : Bool} {exit? : Option (Exit × Nat)} (hi : Awaited isHeld c)
    (hs : c.Step h exit? l c' l') : Awaited isHeld c' := by
  obtain ⟨hheld, hvalue⟩ := hi
  rcases hs.signal with hsignal | ⟨v, hsignal, -⟩
  · exact ⟨hsignal ▸ hheld, hsignal ▸ hvalue⟩
  · refine ⟨by rw [hsignal, Signal.isHeld_send, hheld], fun hn => ?_⟩
    rw [hsignal, Signal.send_of_not_isHeld (hheld.trans hn), hvalue hn]

end Consumer

namespace Bridge

theorem invariant_awaited (h : Handler) (isHeld : Bool) : Invariant h (· ≠ .letGo)
    (fun _ c (_ : Link σ) => c.Awaited isHeld) where
  produce _ hi _ := hi
  consume _ hi _ hs := hi.consume hs
  aside _ _ hi := hi
  lose _ hi hs := by
    obtain ⟨-, parts, rfl⟩ := Consumer.lose?_eq_some hs
    exact ⟨hi.held, hi.value⟩
  letGo ha := (ha rfl).elim

end Bridge

theorem Usage.awaited_begin (u : Usage σ) (taken : UInt32)
    (hc : (u.begin taken).failure? = none) :
    (u.begin taken).bridge.consumer.Awaited (decide (u.await ≠ .letGo)) := by
  obtain ⟨b, ⟨p, hp, hf⟩, hconsumer, -, hbridge⟩ := u.created taken hc
  rw [hbridge]
  split
  next hl => exact ⟨by simp [hl, Signal.letGo], fun _ => hf.value⟩
  next hl => exact ⟨by simp [hl, hconsumer], fun _ => hf.value⟩

namespace Bridge

/-- A bridge whose sides take their steps in any order, and the plain loop `s`. -/
structure Refines (u : Usage σ) (taken : UInt32) (s : PlainLoop σ) (b : Bridge σ) : Prop where
  /-- The journal is always a beginning of the plain loop's journal. -/
  journal : ∃ fuel, Journal.lines u.style b.link.trace <+:
    Journal.lines u.style (s.run u.handler (nextGeneration taken) fuel).2.trace
  /-- It reaches as far as the plain loop's does if the sides only go on for as long as they can. -/
  catchesUp : ∀ fuel, ∃ limit, ∀ more b', (∀ label ∈ more, label.isOfSides) →
    b.run? u.handler more = some b' → limit ≤ more.length ∨ b'.advance? u.handler = none →
    Journal.lines u.style (s.run u.handler (nextGeneration taken) fuel).2.trace <+:
      Journal.lines u.style b'.link.trace
  /-- Where neither side can go on the plain loop has ended, and both are told of alike. -/
  rest : b.advance? u.handler = none → ∃ v t, s.Ends u.handler (nextGeneration taken) v t ∧
    (u.conclude (u.begin taken) b).completion? = (if u.await = .letGo then none else some v) ∧
    (u.conclude (u.begin taken) b).lines =
      Journal.lines u.style (t.conclude (nextGeneration taken) u.await u.after).trace
  /-- If the plain loop ends then both sides come to rest. -/
  bounded : ∀ v t, s.Ends u.handler (nextGeneration taken) v t →
    ∃ limit, ∀ more b', (∀ label ∈ more, label.isOfSides) → b.run? u.handler more = some b' →
      more.length ≤ limit

variable {s : PlainLoop σ} {b : Bridge σ}

theorem shown_of_mirrors (hb : b.Holds (Mirrors h g s)) :
    ∃ fuel, b.link.shown <+: (s.run h g fuel).2.trace := by
  obtain ⟨p, -, hi⟩ := hb
  have hrun := hi.run 0
  exact ⟨_, hrun ▸ PlainLoop.shown_outlook 0⟩

theorem bounded_of_mirrors (hh : h.IsCalm) (hb : b.Holds (Mirrors h g s)) {v : Completion}
    {t : PlainLoop σ} (he : s.Ends h g v t) :
    ∃ limit, ∀ more b', (∀ label ∈ more, label.isOfSides) → b.run? h more = some b' →
      more.length ≤ limit := by
  obtain ⟨limit, hlimit⟩ := bounded_of_entries_le (h := h) (Tally.ofTrace t.trace).entries b
  refine ⟨limit, fun more b' hl hr => hlimit more b' hl hr ?_⟩
  have hb' := (invariant_mirrors hh g s).run (fun l hm => .inl (hl l hm)) hr hb
  obtain ⟨fuel, hshown⟩ := shown_of_mirrors hb'
  rw [entries, ← Tally.ofTrace_filter_isShown]
  exact Tally.entries_mono (hshown.trans (he.trace fuel))

theorem ends_of_mirrors (hf : ∀ f : σ, (Feed.receive? f).isSome) {isHeld : Bool}
    (hb : b.Holds (fun p c l => Mirrors h g s p c l ∧ c.Awaited isHeld))
    (hg : b.generation = g) (hr : b.advance? h = none) :
    ∃ v t, s.Ends h g v t ∧ b.Matches g (if isHeld then some v else none) t := by
  obtain ⟨p, hp, hi, hawaited⟩ := hb
  have hsteady := hi.steady
  obtain ⟨hpstep, hcstep⟩ := rest_of_advance? hp hsteady.served.alive hr
  rcases hsteady.rest hpstep hcstep with ⟨-, hw⟩ | ⟨he, hgone⟩
  · have hsome := hf b.link.feed
    simp [hw] at hsome
  · obtain ⟨exit, he⟩ := Option.isSome_iff_exists.mp he
    have hplace := Producer.place_of_exit? he
    have hview : PlainLoop.outlook h g p b.consumer b.link 0 =
        (some (.ofExit p.delivered g exit), .view p b.consumer b.link) := by
      simp [PlainLoop.outlook, hplace, hgone, PlainLoop.view]
    have hcompletion : b.completion? =
        if isHeld then some (.ofExit p.delivered g exit) else none := by
      cases isHeld with
      | false => exact hawaited.value rfl
      | true =>
        have hattended := hsteady.attended
        simp only [Consumer.Attended, hgone] at hattended
        obtain ⟨v, hv⟩ := Option.isSome_iff_exists.mp (hattended.2.2.2 hawaited.held)
        rcases hsteady.informed.told v hv with rfl | ⟨⟨⟨exit', hplace', rfl⟩, -⟩, -⟩
        · exact (hattended.2.2.1 hv).elim
        · cases hplace.symm.trans hplace'
          exact hv
    refine ⟨.ofExit p.delivered g exit, .view p b.consumer b.link, ⟨_, (hi.run 0).trans hview⟩, ?_⟩
    exact {
      producer := by simp [hp]
      alive := abort?_of_producer hp ▸ hsteady.served.alive
      generation := hg
      completion := hcompletion
      liveness := by simp [hsteady.tidy.liveness, hplace]
      feed := rfl
      shown := rfl }

theorem catchesUp_of_mirrors (hf : ∀ f : σ, (Feed.receive? f).isSome) (hh : h.IsCalm)
    {isHeld : Bool} (hb : b.Holds fun p c l => Mirrors h g s p c l ∧ c.Awaited isHeld)
    (hg : b.generation = g) (fuel : Nat) :
    ∃ limit, ∀ more b', (∀ label ∈ more, label.isOfSides) → b.run? h more = some b' →
      limit ≤ more.length ∨ b'.advance? h = none →
      (s.run h g fuel).2.trace <+: b'.link.shown := by
  obtain ⟨limit, hlimit⟩ := bounded_of_entries_le (h := h) fuel b
  refine ⟨limit + 1, fun more b' hl hr hlong => ?_⟩
  have hb' := ((invariant_mirrors hh g s).and (invariant_awaited h isHeld)).run
    (fun l hm => ⟨.inl (hl l hm), by rintro rfl; cases hl _ hm⟩) hr hb
  -- so many steps lead past fetch number `fuel`, or both sides have ended before
  rcases hlong with hlong | hrest
  · obtain ⟨p, -, hi, -⟩ := hb'
    refine hi.behind fuel (Nat.lt_of_not_le fun hle => ?_)
    have hshort := hlimit more b' hl hr hle
    omega
  · obtain ⟨v, t, he, hmatches⟩ :=
      ends_of_mirrors hf hb' ((generation_of_run hr).trans hg) hrest
    rw [hmatches.shown]
    exact he.trace fuel

theorem refines_of_mirrors (hf : ∀ f : σ, (Feed.receive? f).isSome) (u : Usage σ)
    {taken : UInt32} (hc : (u.begin taken).failure? = none) (hh : u.handler.IsCalm)
    (hb : b.Holds fun p c l => Mirrors u.handler (nextGeneration taken) s p c l ∧
      c.Awaited (decide (u.await ≠ .letGo)))
    (hg : b.generation = nextGeneration taken) : b.Refines u taken s := by
  have hmirrors : b.Holds (Mirrors u.handler (nextGeneration taken) s) := by
    obtain ⟨p, hp, hi, -⟩ := hb
    exact ⟨p, hp, hi⟩
  refine ⟨?_, fun fuel => ?_, fun hrest => ?_, fun v t hends =>
    bounded_of_mirrors hh hmirrors hends⟩
  · obtain ⟨fuel, hshown⟩ := shown_of_mirrors hmirrors
    refine ⟨fuel, ?_⟩
    rw [← Journal.lines_filter_isShown]
    exact hshown.filterMap _
  · obtain ⟨limit, hlimit⟩ := catchesUp_of_mirrors hf hh hb hg fuel
    refine ⟨limit, fun more b' hl hr hlong => ?_⟩
    rw [← Journal.lines_filter_isShown u.style b'.link.trace]
    exact (hlimit more b' hl hr hlong).filterMap _
  · obtain ⟨v, t, hends, hmatches⟩ := ends_of_mirrors hf hb hg hrest
    obtain ⟨hcompletion, hlines⟩ := hmatches.conclude u hc
    refine ⟨v, t, hends, hcompletion.trans ?_, hlines⟩
    by_cases hl : u.await = .letGo <;> simp [hl]

theorem mirrors_of_early (u : Usage σ) {taken : UInt32}
    (hc : (u.begin taken).failure? = none) (hh : u.handler.IsCalm) {labels : List Label}
    (hl : ∀ label ∈ labels, label.isOfSides ∨ label.isAside)
    (hr : (u.begin taken).bridge.run? u.handler labels = some b)
    (hn : .fetching ∉ b.link.trace) :
    b.Holds fun p c l => Mirrors u.handler (nextGeneration taken)
      (.start (labels.foldl Link.outside (u.begin taken).bridge.link)) p c l ∧
        c.Awaited (decide (u.await ≠ .letGo)) := by
  obtain ⟨p₀, hp₀, hf⟩ := u.fresh_begin taken hc
  have hstart := start_of_run hh hl ⟨p₀, hp₀, hf.steady, hf.counted⟩ hr hn
  have hallowed (label : Label) (ha : label.isOfSides ∨ label.isAside) :
      label ≠ .loseConsumer ∧ label ≠ .letGo := by
    cases label <;> simp [Label.isOfSides, Label.isAside] at ha ⊢
  have hinvariant := ((invariant_steady (σ := σ) hh (nextGeneration taken)).and
    (invariant_counted u.handler)).and
      (invariant_awaited u.handler (decide (u.await ≠ .letGo)))
  have hkept := hinvariant.run
    (fun l hm => ⟨⟨(hallowed l (hl l hm)).1, trivial⟩, (hallowed l (hl l hm)).2⟩) hr
  obtain ⟨p, hp, ⟨hsteady, hcounted⟩, hawaited⟩ :=
    hkept ⟨p₀, hp₀, ⟨hf.steady, hf.counted⟩, u.awaited_begin taken hc⟩
  have hmirrors := Mirrors.start (h := u.handler) hsteady hcounted hn
  rw [hstart] at hmirrors
  exact ⟨p, hp, hmirrors, hawaited⟩

end Bridge

/-- Stops are requested before the first fetch and by the handler, which may keep records and let go
of them. Then the steps of both sides do what the plain loop does, whatever their order. -/
theorem Usage.refines_plainLoop (u : Usage Script) (taken : UInt32)
    (hc : (u.begin taken).failure? = none) (hh : u.handler.IsCalm) {early late : List Bridge.Label}
    {m b : Bridge Script} (he : ∀ label ∈ early, label.isOfSides ∨ label.isAside)
    (hm : (u.begin taken).bridge.run? u.handler early = some m) (hn : .fetching ∉ m.link.trace)
    (hl : ∀ label ∈ late, label.isOfSides ∨ label = .wake)
    (hr : m.run? u.handler late = some b) :
    b.Refines u taken (.start (early.foldl Link.outside (u.begin taken).bridge.link)) := by
  have hallowed (label : Bridge.Label) (ha : label.isOfSides ∨ label = .wake) :
      (label.isOfSides ∨ label = .wake ∧ ∀ f : Script, Feed.wake f = f) ∧ label ≠ .letGo := by
    rcases ha with ha | rfl
    · exact ⟨.inl ha, by rintro rfl; cases ha⟩
    · exact ⟨.inr ⟨rfl, fun _ => rfl⟩, by simp⟩
  have hb := ((Bridge.invariant_mirrors hh _ _).and (Bridge.invariant_awaited u.handler _)).run
    (fun l hm => hallowed l (hl l hm)) hr (Bridge.mirrors_of_early u hc hh he hm hn)
  refine Bridge.refines_of_mirrors (fun _ => rfl) u hc hh hb ?_
  exact (Bridge.generation_of_run hr).trans
    ((Bridge.generation_of_run hm).trans (u.generation_begin taken hc))

/-- The handler keeps the first record and requests a stop at the second one. -/
theorem Usage.refines_twoRecords :
    ∃ m b, (Usage.twoRecords.begin 0).bridge.run? Usage.twoRecords.handler
        (Usage.twoRecordsLabels.take 2) = some m ∧
      m.run? Usage.twoRecords.handler (Usage.twoRecordsLabels.drop 2) = some b ∧
      b.Refines Usage.twoRecords 0 (.start ((Usage.twoRecordsLabels.take 2).foldl Link.outside
        (Usage.twoRecords.begin 0).bridge.link)) ∧
      b.advance? Usage.twoRecords.handler = none ∧
      (Usage.twoRecords.conclude (Usage.twoRecords.begin 0) b).lines =
        ["start", "fetch", "yield 7", "handle 7", "handled", "fetch", "yield 8", "handle 8",
          "stop", "handled", "drop 8", "fetch", "end", "fetcher dropped", "drop 7",
          "handler dropped", "completed"] := by
  have hc : (Usage.twoRecords.begin 0).failure? = none := by decide +kernel
  have hm : ((Usage.twoRecords.begin 0).bridge.run? Usage.twoRecords.handler
      (Usage.twoRecordsLabels.take 2)).map (decide <| .fetching ∉ ·.link.trace) = some true := by
    decide +kernel
  obtain ⟨m, hm, hn⟩ := Option.map_eq_some_iff.mp hm
  have hr : (((Usage.twoRecords.begin 0).bridge.run? Usage.twoRecords.handler
      (Usage.twoRecordsLabels.take 2)).bind fun m => (m.run? Usage.twoRecords.handler
        (Usage.twoRecordsLabels.drop 2)).map fun b => (b.advance? Usage.twoRecords.handler,
          (Usage.twoRecords.conclude (Usage.twoRecords.begin 0) b).lines)) =
      some (none, ["start", "fetch", "yield 7", "handle 7", "handled", "fetch", "yield 8",
        "handle 8", "stop", "handled", "drop 8", "fetch", "end", "fetcher dropped", "drop 7",
        "handler dropped", "completed"]) := by decide +kernel
  rw [hm] at hr
  obtain ⟨b, hr, hb⟩ := Option.map_eq_some_iff.mp hr
  obtain ⟨hrest, hlines⟩ := Prod.mk.inj hb
  exact ⟨m, b, hm, hr, refines_plainLoop _ 0 hc isCalm_twoRecords (by decide) hm
    (of_decide_eq_true hn) (by decide) hr, hrest, hlines⟩

end Handoff
