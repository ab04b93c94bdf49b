import Handoff.Proofs.Supply
import Handoff.Proofs.Teardown

/-! Who leaves a bridge leaves no record behind: neither a source that is retired, nor a handler
that is dropped, nor a queue that has lost its receiver. -/
namespace Handoff

@[simp] def Consumer.Place.hasDropped (part : Consumer.Part) : Consumer.Place → Prop
  | leaving parts => part ∉ parts
  | gone => True
  | fresh | receiving | handling .. | returning _ | unwinding _ | awaiting | joining _
  | resolving _ => False

variable {σ : Type} [Feed σ] [Stock σ] {h : Handler} {exit? : Option (Exit × Nat)}
  {p p' : Producer} {c c' : Consumer} {l l' : Link σ}

namespace Producer.Step

theorem isSpent (hs : p.Step l p' l') (hi : p.place.isRetired → Stock.IsSpent l.feed)
    (hp' : p'.place.isRetired) : Stock.IsSpent l'.feed := by
  cases hs with
  | enterAnswered | receive =>
    rw [Place.afterFetch_isRetired] at hp'
    cases hp'
  | start | enterWaiting | pushRefused | push | collectHandled | collectFailed => cases hp'
  | retire hp hf =>
    have hspent := Stock.isSpent_retire l.feed
    rwa [hf] at hspent
  | mark hp | release hp => exact hi (by rw [hp]; rfl)

omit [Stock σ] in
theorem calls (hs : p.Step l p' l') (hq : l.queue.calls = []) (hr : l.queue.hasReceiver = false) :
    l'.queue.calls = [] ∧ l'.queue.hasReceiver = false := by
  cases hs with
  | push hp hpush =>
    rw [CallQueue.push?_eq_none_iff.mpr hr] at hpush
    cases hpush
  | collectHandled hp hc | collectFailed hp hc =>
    cases CallQueue.collect?_eq_some hc
    exact ⟨hq, hr⟩
  | _ => exact ⟨hq, hr⟩

end Producer.Step

namespace Consumer

theorem isSpent_act (call : Call) (isHeld : Bool) (rest : List Act) (a : Act)
    (hl : Stock.IsSpent l.feed) : Stock.IsSpent (c.act l call isHeld rest a).2.feed := by
  cases a with
  | stop => exact Stock.isSpent_raise hl
  | finishStop => exact Stock.isSpent_wake hl
  | publish x => exact Stock.isSpent_publish x hl
  | keep | setAside | releaseKept | panic _ => exact hl

namespace Step

theorem isSpent (hs : c.Step h exit? l c' l') (hl : Stock.IsSpent l.feed) :
    Stock.IsSpent l'.feed := by
  cases hs with
  | act hp => exact isSpent_act _ _ _ _ hl
  | @drop part _ hp => cases part <;> exact hl
  | _ => exact hl

omit [Stock σ] in
theorem kept (hs : c.Step h exit? l c' l') (hi : c.place.hasDropped .handler → c.kept = [])
    (hc' : c'.place.hasDropped .handler) : c'.kept = [] := by
  cases hs with
  | @act call isHeld a rest hp =>
    rcases c.act_place l call isHeld rest a with ⟨_, _, hplace⟩ | hplace <;>
      simp [hplace] at hc'
  | @drop part rest hp =>
    cases part with
    | context =>
      obtain ⟨_, _, hdrop⟩ := c.dropContext_eq
      simp only [dropPart, hdrop]
      exact hi (by simpa [hp] using hc')
    | handler => rfl
    | receiver => exact hi (by simpa [hp] using hc')
  | leave hp => exact hi (by simp [hp])
  | unwind | giveUp | resolve => simp at hc'
  | _ => cases hc'

omit [Stock σ] in
theorem calls (hs : c.Step h exit? l c' l') {P : Prop}
    (hi : c.place.hasDropped .receiver →
      l.queue.calls = [] ∧ (P → l.queue.hasReceiver = false))
    (hc' : c'.place.hasDropped .receiver) :
    l'.queue.calls = [] ∧ (P → l'.queue.hasReceiver = false) := by
  cases hs with
  | @act call isHeld a rest hp =>
    rcases c.act_place l call isHeld rest a with ⟨_, _, hplace⟩ | hplace <;>
      simp [hplace] at hc'
  | @drop part rest hp =>
    cases part with
    | context | handler => exact hi (by simpa [hp] using hc')
    | receiver => exact ⟨rfl, fun _ => rfl⟩
  | leave hp => exact hi (by simp [hp])
  | unwind | giveUp | resolve => simp at hc'
  | _ => cases hc'

end Step

end Consumer

namespace Bridge

/-- What has left, has left nothing. -/
structure Orderly (b : Bridge σ) : Prop where
  source : (∀ p, b.producer = some p → p.place.isRetired) → Stock.IsSpent b.link.feed
  handler : b.consumer.place.hasDropped .handler → b.consumer.kept = []
  receiver : b.consumer.place.hasDropped .receiver →
    b.link.queue.calls = [] ∧ (b.producer.isSome → b.link.queue.hasReceiver = false)

variable {b b' : Bridge σ}

theorem Orderly.fed (hi : b.Orderly) (l : Link σ) (wakes : Nat) (hq : l.queue = b.link.queue)
    (hf : Stock.IsSpent b.link.feed → Stock.IsSpent l.feed) :
    Orderly { b with link := l, wakes := wakes } where
  source hp := hf (hi.source hp)
  handler := hi.handler
  receiver := by simpa only [hq] using hi.receiver

theorem Orderly.step? (hi : b.Orderly) {label : Label} (hs : b.step? h label = some b') :
    b'.Orderly := by
  cases (step?_eq_some_iff.mp hs).2 with
  | @produce p p' l' hp hside =>
    refine ⟨fun hr => ?_, hi.handler, fun hc => ?_⟩
    · refine hside.isSpent (fun hretired => hi.source fun q hq => ?_) (hr p' rfl)
      cases hp.symm.trans hq
      exact hretired
    · obtain ⟨hq, hreceiver⟩ := hi.receiver hc
      obtain ⟨hq', hreceiver'⟩ := hside.calls hq (hreceiver (by rw [hp]; rfl))
      exact ⟨hq', fun _ => hreceiver'⟩
  | consume hside =>
    exact ⟨fun hr => hside.isSpent (hi.source hr), hside.kept hi.handler, hside.calls hi.receiver⟩
  | raise => exact hi.fed _ _ rfl Stock.isSpent_raise
  | wake => exact hi.fed _ _ rfl Stock.isSpent_wake
  | publish x => exact hi.fed _ _ rfl (Stock.isSpent_publish x)
  | loseConsumer hl =>
    refine ⟨hi.source, fun hc => ?_, fun hc => ?_⟩
    all_goals
      unfold Consumer.lose? at hl
      split at hl <;> cases hl <;> simp at hc
  | letGo => exact ⟨hi.source, hi.handler, hi.receiver⟩

end Bridge

theorem Depot.isSpent_supply? {d d' : Depot σ} {x : Supply} (hs : d.supply? x = some d')
    (hd : Stock.IsSpent d.feed) : Stock.IsSpent d'.feed := by
  cases x with
  | ask x =>
    cases hs
    exact Stock.isSpent_publish x hd
  | make id =>
    cases hs
    exact Stock.isSpent_make id hd
  | send p r =>
    simp only [supply?, Option.ite_none_right_eq_some] at hs
    obtain ⟨-, hs⟩ := hs
    split at hs
    next f hf =>
      cases hs
      exact Stock.isSpent_send? hf hd
    next =>
      cases hs
      exact hd
  | discard r =>
    simp only [supply?, Option.ite_none_right_eq_some, Option.some.injEq] at hs
    obtain ⟨-, rfl⟩ := hs
    exact hd

theorem Supplied.orderly_step? {m m' : Supplied σ} (hi : m.bridge.Orderly)
    {label : Supplied.Label} (hs : m.step? h label = some m') : m'.bridge.Orderly := by
  cases label with
  | bridge label =>
    obtain ⟨b, hb, rfl⟩ := Option.map_eq_some_iff.mp hs
    exact hi.step? hb
  | supply x =>
    obtain ⟨d, hd, -, rfl⟩ := step?_supply hs
    exact hi.fed _ _ rfl (Depot.isSpent_supply? hd)

theorem Supplied.orderly_run? {m m' : Supplied σ} (hi : m.bridge.Orderly)
    {labels : List Supplied.Label} (hr : m.run? h labels = some m') : m'.bridge.Orderly := by
  induction labels generalizing m with
  | nil =>
    cases hr
    exact hi
  | cons label rest ih =>
    obtain ⟨next, hs, hr⟩ := Option.bind_eq_some_iff.mp hr
    exact ih (orderly_step? hi hs) hr

/-- A bridge, or what a failed creation left, from a source after something had been noted. -/
structure Bridge.Accounts (f : σ) (es : List Event) (b : Bridge σ) : Prop where
  conserved : Conserved (Stock.made f) (Stock.made b.link.feed)
    (Stock.held f ++ Event.releases es) b.records
  orderly : b.Orderly

namespace Creation

theorem accounts_remains {f : σ} {es : List Event} {l : Link σ} (failure : CreateFailure)
    (generation taken : UInt32) (hl : Conserved (Stock.made f) (Stock.made l.feed)
      (Stock.held f ++ Event.releases es) l.records) (hf : Stock.IsSpent l.feed) :
    (remains l failure generation taken).bridge.Accounts f es where
  conserved := by
    apply hl.within
    intro s
    simp [remains, Bridge.records, Link.records, CallQueue.records, CallQueue.dropSender,
      Consumer.records]
  orderly := ⟨fun _ => hf, fun hc => hc.elim, fun hc => hc.elim⟩

theorem conserved_retire (l : Link σ) (panic? : Option Payload) :
    Conserved (Stock.made l.feed) (Stock.made (retire l panic?).feed) l.records
      (retire l panic?).records :=
  l.conserved_fed (Feed.retire l.feed).1
    (Event.releasing (Feed.retire l.feed).2 ++ [Event.fetcherDropped l.liveness panic?])
    (by simpa using Stock.conserved_retire l.feed)

theorem accounts_spawn {f : σ} {es : List Event} {l : Link σ} (config : ThreadRequest)
    (generation : UInt32) (hl : Conserved (Stock.made f) (Stock.made l.feed)
      (Stock.held f ++ Event.releases es) l.records) :
    (spawn l config generation).bridge.Accounts f es := by
  have hretire (panic? : Option Payload) := hl.trans (conserved_retire l panic?)
  have hspent (panic? : Option Payload) : Stock.IsSpent (retire l panic?).feed :=
    Stock.isSpent_retire l.feed
  unfold spawn
  cases config.spawnFault? generation with
  | none =>
    refine ⟨hl.within fun s => ?_, ⟨fun hr => ?_, fun hc => hc.elim, fun hc => hc.elim⟩⟩
    · simp [Bridge.records, Link.records, Consumer.records]
    · cases hr _ rfl
  | some fault =>
    cases fault with
    | badName => exact accounts_remains _ _ _ (hretire _) (hspent _)
    | refused =>
      simp only [refuse]
      cases Feed.retirePanic? l.feed with
      | some p => exact accounts_remains _ _ _ (hretire _) (hspent _)
      | none =>
        have hraise := (hretire none).trans (Link.conserved_raise _)
        exact accounts_remains _ _ _ (hraise.trans (Link.conserved_wake _))
          (Stock.isSpent_wake (Stock.isSpent_raise (hspent none)))

end Creation

namespace Source

theorem accounts_create (s : Source σ) (config : ThreadRequest) (taken : UInt32) (es : List Event) :
    (s.create config taken es).bridge.Accounts s.feed es := by
  have hstart : Conserved (Stock.made s.feed) (Stock.made s.feed)
      (Stock.held s.feed ++ Event.releases es)
      (Link.start s.feed (es ++ [.starting])).records := by
    apply Conserved.of_copies_eq
    intro n
    simp [Link.records, Link.start, CallQueue.records, Link.trace]
  unfold create
  cases s.fault? with
  | none => exact Creation.accounts_spawn _ _ hstart
  | some fault =>
    have hretire := Link.conserved_fed (Link.start s.feed (es ++ [.starting]))
      (Feed.retire s.feed).1 (Event.releasing (Feed.retire s.feed).2)
      (by simpa [Link.start] using Stock.conserved_retire s.feed)
    cases fault with
    | refused report =>
      exact Creation.accounts_remains _ _ _ (hstart.trans hretire) (Stock.isSpent_retire s.feed)
    | panicked p =>
      exact Creation.accounts_remains _ _ _ (hstart.trans hretire) (Stock.isSpent_retire s.feed)

theorem accounts_createOutside (s : Source σ) (taken : UInt32) (es : List Event) :
    (s.createOutside taken es).bridge.Accounts s.feed es where
  conserved := by
    have hretire := Stock.conserved_retire s.feed
    apply hretire.within
    intro n
    simp [createOutside, Creation.remains, Link.start, Bridge.records, Link.records,
      CallQueue.records, CallQueue.dropSender, Consumer.records]
    omega
  orderly := by
    refine ⟨fun _ => Stock.isSpent_retire s.feed, fun _ => rfl, fun _ => ⟨rfl, fun hp => ?_⟩⟩
    cases hp

end Source

/-- A source of which nothing was made yet. -/
structure Stock.Fresh (f : σ) : Prop where
  made : Stock.made f = 0
  held : Stock.held f = []

theorem Bridge.Accounts.conserved_begin {f : σ} (hf : Stock.Fresh f) {before : List Supply}
    {d : Depot σ} (hd : Depot.supplyAll? { feed := f } before = some d) {b : Bridge σ}
    (hb : b.Accounts d.feed d.noted) :
    Conserved 0 (Stock.made b.link.feed) []
      (Supplied.records { bridge := b, hands := d.hands }) := by
  have hbefore := Depot.conserved_supplyAll? hd
  have hcreated := hb.conserved
  refine ⟨Nat.zero_le _, fun n => ?_⟩
  have hn := hbefore.copies n
  have hn' := hcreated.copies n
  have hborn := born_add (Nat.zero_le (Stock.made d.feed)) hcreated.le n
  simp [Depot.records, hf.made, hf.held, Supplied.records] at hn hn' ⊢
  omega

end Handoff
