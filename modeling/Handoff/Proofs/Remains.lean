import Handoff.Proofs.Delivery
import Handoff.Proofs.Refusal

/-! What a creation leaves that gives no bridge: a task that comes to its end by itself, and a
source that takes nothing in. -/
namespace Handoff

namespace Event

@[simp] def isOfFailure : Event → Bool
  | starting | fetcherDropped .. | stopRequested => true
  | e => e.isPublishing

theorem isOfFailure_of_isPublishing {e : Event} (he : e.isPublishing) : e.isOfFailure := by
  cases e <;> simp_all [isPublishing]

end Event

namespace Consumer.Place

/-- The steps that a task without records and without a context has left; it has no other places. -/
@[simp] def stepsLeft? : Place → Option Nat
  | fresh => some 6
  | receiving => some 5
  | awaiting => some 4
  | leaving parts => some (parts.length + 1)
  | gone => some 0
  | handling .. | returning _ | unwinding _ | joining _ | resolving _ => none

@[simp] def handlersLeft : Place → Nat
  | leaving parts => parts.count .handler
  | gone => 0
  | fresh | receiving | handling .. | returning _ | unwinding _ | awaiting | joining _
  | resolving _ => 1

end Consumer.Place

theorem Consumer.stepsLeft?_of_lose? {c c' : Consumer} (hl : c.lose? = some c') {n : Nat}
    (hn : c.place.stepsLeft? = some n) :
    (∃ k ≤ n, c'.place.stepsLeft? = some k) ∧ c'.place.handlersLeft = c.place.handlersLeft := by
  unfold lose? at hl
  split at hl <;> cases hl
  -- before its first poll and at its two waits
  all_goals
    next hp =>
      simp only [hp, Place.stepsLeft?, Option.some.injEq] at hn
      exact ⟨⟨4, by omega, rfl⟩, by rw [hp]; rfl⟩

variable {σ : Type} [Feed σ]

/-- What a creation without a bridge has left after what was noted by then; its task has so many
steps to go. -/
structure Bridge.Remnant (noted : List Event) (n : Nat) (b : Bridge σ) : Prop where
  producer : b.producer = none
  wakes : b.wakes = 0
  context : b.consumer.context = .lost
  value : b.consumer.signal.value = none
  kept : b.consumer.kept = []
  calls : b.link.queue.calls = []
  hasSender : b.link.queue.hasSender = false
  place : b.consumer.place.stepsLeft? = some n
  trace : ∃ es, b.link.trace = noted ++ es ∧ (∀ e ∈ es, e.isPublishing ∨ e = .handlerDropped) ∧
    es.count .handlerDropped + b.consumer.place.handlersLeft = 1

namespace Bridge.Remnant

variable {noted : List Event} {n : Nat} {b b' : Bridge σ} {h : Handler}

section Changes

omit [Feed σ]

theorem moved (hi : b.Remnant noted n) {place : Consumer.Place} {k : Nat} {l : Link σ}
    {es : List Event} (hp : place.stepsLeft? = some k)
    (hq : l.queue.calls = [] ∧ l.queue.hasSender = false) (ht : l.trace = b.link.trace ++ es)
    (hes : ∀ e ∈ es, e.isPublishing ∨ e = .handlerDropped)
    (hl : es.count .handlerDropped + place.handlersLeft = b.consumer.place.handlersLeft) :
    Remnant noted k
      { b with consumer := { b.consumer with place := place }, link := l } where
  producer := hi.producer
  wakes := hi.wakes
  context := hi.context
  value := hi.value
  kept := hi.kept
  calls := hq.1
  hasSender := hq.2
  place := hp
  trace := by
    obtain ⟨before, htrace, hbefore, hcount⟩ := hi.trace
    refine ⟨before ++ es, ?_, fun e he => ?_, ?_⟩
    · rw [ht, htrace, List.append_assoc]
    · exact (List.mem_append.mp he).elim (hbefore e) (hes e)
    · rw [List.count_append, Nat.add_assoc, hl]
      exact hcount

theorem queue (hi : b.Remnant noted n) :
    b.link.queue.calls = [] ∧ b.link.queue.hasSender = false := ⟨hi.calls, hi.hasSender⟩

theorem goes (hi : b.Remnant noted n) {place : Consumer.Place} {k : Nat}
    (hp : place.stepsLeft? = some k)
    (hl : place.handlersLeft = b.consumer.place.handlersLeft) :
    Remnant noted k { b with consumer := { b.consumer with place := place } } :=
  hi.moved hp hi.queue (List.append_nil _).symm (by simp) (by simpa using hl)

theorem fed (hi : b.Remnant noted n) (f : σ) {es : List Event} (hes : ∀ e ∈ es, e.isPublishing) :
    Remnant noted n { b with link := b.link.fed f es } := by
  have hnone : es.count .handlerDropped = 0 :=
    List.count_eq_zero.mpr fun hm => by cases hes _ hm
  refine hi.moved hi.place hi.queue (Link.trace_fed _ f es) (fun e he => .inl (hes e he)) ?_
  rw [hnone, Nat.zero_add]

theorem dropPart (hi : b.Remnant noted n) (part : Consumer.Part) :
    b.consumer.dropPart b.link part = (b.consumer, match part with
      | .context => b.link
      | .handler => b.link.note [.handlerDropped]
      | .receiver => { b.link with queue := { b.link.queue with hasReceiver := false } }) := by
  cases part with
  | context => simp [Consumer.dropPart, Consumer.dropContext, hi.context]
  | handler =>
    have hkept : { b.consumer with kept := [] } = b.consumer := by rw [← hi.kept]
    rw [Consumer.dropPart, hkept, hi.kept]
    rfl
  | receiver =>
    rw [Consumer.dropPart, CallQueue.dropReceiver_of_calls_eq_nil hi.calls]
    rfl

end Changes

theorem consume (hi : b.Remnant noted n) {c : Consumer} {l : Link σ}
    (hs : b.consumer.Step h b.exit? b.link c l) :
    ∃ k, n = k + 1 ∧ Remnant noted k { b with consumer := c, link := l } := by
  have hplace := hi.place
  cases hs with
  | begin hp =>
    rw [hp] at hplace
    cases hplace
    exact ⟨5, rfl, hi.goes rfl (by rw [hp]; rfl)⟩
  | take hp hq =>
    obtain ⟨rest, hcalls, -⟩ := CallQueue.take?_eq_some hq
    rw [hi.calls] at hcalls
    cases hcalls
  | drained hp hq hn =>
    rw [hp] at hplace
    cases hplace
    exact ⟨4, rfl, hi.goes rfl (by rw [hp]; rfl)⟩
  | act hp | finish hp | answer hp | unwind hp | judge hp | resolve hp =>
    rw [hp] at hplace
    cases hplace
  | join hp hc =>
    rw [hi.context] at hc
    cases hc
  | giveUp hp hc =>
    rw [hp] at hplace
    cases hplace
    exact ⟨3, rfl, hi.goes rfl (by rw [hp]; rfl)⟩
  | @drop part rest hp =>
    rw [hp] at hplace
    cases hplace
    refine ⟨rest.length + 1, rfl, ?_⟩
    rw [hi.dropPart part]
    cases part with
    | context => exact hi.goes rfl (by simp [hp])
    | handler =>
      exact hi.moved rfl hi.queue (Link.trace_note _ _) (by simp) (by simp [hp, Nat.add_comm])
    | receiver =>
      exact hi.moved rfl hi.queue (List.append_nil _).symm (by simp) (by simp [hp])
  | leave hp =>
    rw [hp] at hplace
    cases hplace
    exact ⟨0, rfl, hi.goes rfl (by rw [hp]; rfl)⟩

theorem step? (hi : b.Remnant noted n) {label : Label} (hs : b.step? h label = some b') :
    ∃ k, k + (if label = .consume then 1 else 0) ≤ n ∧ b'.Remnant noted k := by
  cases (step?_eq_some_iff.mp hs).2 with
  | produce hp =>
    rw [hi.producer] at hp
    cases hp
  | consume hside =>
    obtain ⟨k, rfl, hnext⟩ := hi.consume hside
    exact ⟨k, Nat.le_refl _, hnext⟩
  | raise hp =>
    rw [hi.producer] at hp
    cases hp
  | wake hw =>
    rw [hi.wakes] at hw
    cases hw
  | publish x => exact ⟨n, Nat.le_refl n, hi.fed _ (Feed.publish_notes x b.link.feed)⟩
  | @loseConsumer c hl =>
    obtain ⟨⟨k, hk, hplace⟩, hleft⟩ := Consumer.stepsLeft?_of_lose? hl hi.place
    obtain ⟨-, parts, rfl⟩ := Consumer.lose?_eq_some hl
    exact ⟨k, hk, hi.goes hplace hleft⟩
  | letGo => exact ⟨n, Nat.le_refl n, { hi with }⟩

theorem isSome_consume (hi : b.Remnant noted n) :
    b.consumer.place = .gone ∨ (b.step? h .consume).isSome := by
  cases hc : b.consumer.step? h b.exit? b.link with
  | some next =>
    have ha : b.abort? = none := by simp [abort?, hi.producer]
    exact .inr (by simp [Bridge.step?, ha, consume?, hc])
  | none =>
    cases Consumer.stuck_of_step?_eq_none hc with
    | receiving _ _ hs =>
      rw [hi.hasSender] at hs
      cases hs
    | awaiting _ hslot =>
      rw [hi.context] at hslot
      cases hslot
    | joining hp =>
      have hplace := hi.place
      rw [hp] at hplace
      cases hplace
    | gone hp => exact .inl hp

end Bridge.Remnant

/-- A failed creation has dropped the fetcher that its source may have yielded, and has left a task
that was not polled. -/
theorem Source.remnant_of_failure (s : Source σ) (config : ThreadRequest) (taken : UInt32)
    {es : List Event} (hes : ∀ e ∈ es, e.isPublishing)
    (hc : (s.create config taken es).failure?.isSome) :
    ∃ noted, (s.create config taken es).bridge.Remnant noted 6 ∧ (∀ e ∈ noted, e.isOfFailure) ∧
      (Tally.ofTrace noted).retirements.length = (if s.fault?.isNone then 1 else 0) ∧
      ∀ r ∈ (Feed.retire s.feed).2, .released r ∈ noted := by
  obtain ⟨failure, hc⟩ := Option.isSome_iff_exists.mp hc
  obtain ⟨l, g, hf, hremains⟩ := s.failing_of_failure config taken es hc
  obtain ⟨hqueue, -, panic?, htrace⟩ := hf.left
  have hquiet : Tally.ofTrace (es ++ [.starting]) = {} := by
    apply Tally.ofTrace_of_isQuiet
    intro e he
    rcases List.mem_append.mp he with he | he
    · exact Event.isQuiet_of_isPublishing (hes e he)
    · rw [List.mem_singleton.mp he]
      rfl
  rw [Link.trace_start] at htrace
  rw [hremains]
  refine ⟨l.trace, ⟨rfl, rfl, rfl, rfl, rfl, ?_, rfl, rfl, [], ?_, ?_, rfl⟩, ?_, ?_, ?_⟩
  · have hcalls : l.queue.calls = [] := by
      rw [hqueue]
      rfl
    exact hcalls
  · exact (List.append_nil _).symm
  · simp
  · intro e he
    rw [htrace] at he
    simp only [List.mem_append, List.mem_singleton, Event.releasing, List.mem_map] at he
    rcases he with (((he | rfl) | ⟨r, -, rfl⟩) | he) | he
    · exact Event.isOfFailure_of_isPublishing (hes e he)
    · rfl
    · rfl
    all_goals
      split at he
      · rw [List.mem_singleton.mp he]
        rfl
      · cases he
  · rw [htrace, Tally.ofTrace_append, Tally.ofTrace_append, Tally.ofTrace_append, hquiet,
      Tally.foldl_add_releasing]
    cases s.fault?.isNone <;> cases failure.asksToStop <;> rfl
  · intro r hr
    rw [htrace]
    simp only [List.mem_append]
    exact .inl (.inl (.inr (List.mem_map_of_mem hr)))

namespace Supplied

variable [Stock σ] {noted : List Event} {n : Nat} {m m' : Supplied σ} {h : Handler}

theorem remnant_step? (hi : m.bridge.Remnant noted n) {label : Label}
    (hs : m.step? h label = some m') :
    ∃ k, k + (if label = .bridge .consume then 1 else 0) ≤ n ∧ m'.bridge.Remnant noted k := by
  cases label with
  | bridge label =>
    obtain ⟨b, hb, rfl⟩ := Option.map_eq_some_iff.mp hs
    obtain ⟨k, hk, hnext⟩ := hi.step? hb
    exact ⟨k, by simpa using hk, hnext⟩
  | supply x =>
    obtain ⟨d, -, hes, rfl⟩ := step?_supply hs
    exact ⟨n, Nat.le_refl n, hi.fed d.feed hes⟩

theorem remnant_run? (hi : m.bridge.Remnant noted n) {labels : List Label}
    (hr : m.run? h labels = some m') :
    ∃ k, k + labels.count (.bridge .consume) ≤ n ∧ m'.bridge.Remnant noted k := by
  induction labels generalizing m n with
  | nil =>
    cases hr
    exact ⟨n, Nat.le_refl n, hi⟩
  | cons label rest ih =>
    obtain ⟨next, hs, hr⟩ := Option.bind_eq_some_iff.mp hr
    obtain ⟨k, hk, hnext⟩ := remnant_step? hi hs
    obtain ⟨k', hk', hlast⟩ := ih hnext hr
    refine ⟨k', ?_, hlast⟩
    rw [List.count_cons]
    simp only [beq_iff_eq]
    omega

/-- Callers have supplied a source, no bridge came of it, and they go on with what was left. -/
def FollowsFailure (s : Source σ) (before : List Supply) (config : ThreadRequest) (taken : UInt32)
    (h : Handler) (labels : List Label) (m : Supplied σ) : Prop :=
  ∃ d, Depot.supplyAll? { feed := s.feed } before = some d ∧
    ({ s with feed := d.feed }.create config taken d.noted).failure?.isSome ∧
    (begin s d config taken).run? h labels = some m

/-- What a failed creation has left takes its end: without a fetch, an invocation or a
completion. -/
structure LeavesNothing (s : Source σ) (h : Handler) (labels : List Label) (m : Supplied σ) :
    Prop where
  fetching : .fetching ∉ m.bridge.link.trace
  handling : ∀ r, .handling r ∉ m.bridge.link.trace
  joined : ∀ isOk, .joined isOk ∉ m.bridge.link.trace
  completion : m.bridge.completion? = none
  context : m.bridge.consumer.context = .lost
  /-- The fetcher is dropped when the creation is left, and then no more. -/
  fetcher : (Tally.ofTrace m.bridge.link.trace).retirements.length =
    if s.fault?.isNone then 1 else 0
  /-- The task can always go on, and it does so six times at most. -/
  consume : m.bridge.consumer.place = .gone ∨ (m.step? h (.bridge .consume)).isSome
  few : labels.count (.bridge .consume) ≤ 6
  /-- By its end it has dropped the handler, once. -/
  handler : m.bridge.consumer.place = .gone → m.bridge.link.trace.count .handlerDropped = 1 ∧
    m.bridge.consumer.records = []

theorem leavesNothing_of_remnant {s : Source σ} {labels : List Label}
    (hi : m.bridge.Remnant noted n) (hnoted : ∀ e ∈ noted, e.isOfFailure)
    (hretired : (Tally.ofTrace noted).retirements.length = if s.fault?.isNone then 1 else 0)
    (hfew : labels.count (.bridge .consume) ≤ 6) : m.LeavesNothing s h labels := by
  obtain ⟨es, htrace, hes, hcount⟩ := hi.trace
  have hall (e : Event) (he : e ∈ m.bridge.link.trace) :
      e.isOfFailure ∨ e = .handlerDropped := by
    rw [htrace] at he
    rcases List.mem_append.mp he with he | he
    · exact .inl (hnoted e he)
    · exact (hes e he).imp_left Event.isOfFailure_of_isPublishing
  have hquiet : ∀ e ∈ es, e.isQuiet := by
    intro e he
    rcases hes e he with he | rfl
    · exact Event.isQuiet_of_isPublishing he
    · rfl
  refine ⟨fun he => ?_, fun r he => ?_, fun isOk he => ?_, hi.value, hi.context, ?_, ?_, hfew,
    fun hgone => ⟨?_, ?_⟩⟩
  · simpa [Event.isPublishing] using hall _ he
  · simpa [Event.isPublishing] using hall _ he
  · simpa [Event.isPublishing] using hall _ he
  · rw [htrace, Tally.ofTrace_append, Tally.foldl_add_of_isQuiet _ hquiet]
    exact hretired
  · simpa [step?] using hi.isSome_consume (h := h)
  · have hbefore : noted.count .handlerDropped = 0 :=
      List.count_eq_zero.mpr fun he => by cases hnoted _ he
    rw [hgone] at hcount
    rw [htrace, List.count_append, hbefore, Nat.zero_add]
    exact hcount
  · rw [Consumer.records, hgone, hi.kept]
    rfl

theorem count_released_le_one {s : Source σ} (hf : Stock.Fresh s.feed) {before : List Supply}
    {d : Depot σ} (hd : Depot.supplyAll? { feed := s.feed } before = some d)
    {config : ThreadRequest} {taken : UInt32} {labels : List Label}
    (hr : (begin s d config taken).run? h labels = some m) (r : Record) :
    m.bridge.link.trace.count (.released r) ≤ 1 := by
  have haccounts : (begin s d config taken).bridge.Accounts d.feed d.noted :=
    Source.accounts_create { s with feed := d.feed } config taken d.noted
  have hall := (haccounts.conserved_begin hf hd).trans (conserved_run? hr)
  have hcopies := hall.copies_le_one r.serial
  have hcount := Event.count_released_le r m.bridge.link.trace
  simp [records, Bridge.records, Link.records] at hcopies
  omega

/-- A channel whose reader is gone takes nothing in and gives back what it is sent; what it had
accepted before is released. -/
structure TurnsAway (accepted : List Message) (h : Handler) (m : Supplied Channel) : Prop where
  released : ∀ r, .record r ∈ accepted → m.bridge.link.trace.count (.released r) = 1
  messages : m.bridge.link.feed.messages = []
  accepted : ∀ label, m.accepted? label = none
  sent : ∀ p, ∀ r ∈ m.hands, m.step? h (.supply (.send p r)) =
    some { m with bridge := { m.bridge with link := m.bridge.link.note [.rejected r] } }
  published : ∀ p id, m.bridge.link.feed.isAlive p → ∀ r f,
    Channel.make id m.bridge.link.feed = (r, f) →
    m.step? h (.supply (.ask (.publish p id))) =
      some { m with bridge := { m.bridge with
        link := m.bridge.link.fed f [.rejected r, .released r] } }

theorem turnsAway_of_remnant {accepted : List Message} {m : Supplied Channel}
    (hi : m.bridge.Remnant noted n) (hs : m.bridge.link.feed.IsSpent)
    (hr : ∀ r, .record r ∈ accepted → m.bridge.link.trace.count (.released r) = 1) :
    m.TurnsAway accepted h := by
  have hclosed (x : Publishing) : m.bridge.link.feed.accepted? x = none := by
    cases hx : m.bridge.link.feed.accepted? x with
    | none => rfl
    | some message =>
      have hopen := ((Channel.takes_publish _ x).sender (by rw [hx]; rfl)).1
      rw [hs.isOpen] at hopen
      cases hopen
  have halive : m.bridge.abort? = none := by simp [Bridge.abort?, hi.producer]
  refine ⟨hr, hs.messages, fun label => ?_, fun p r hmem => ?_,
    fun p id hp r f hmake => ?_⟩
  · cases label with
    | supply x =>
      cases x with
      | ask x => exact hclosed x
      | send p r => simp [accepted?, Supply.accepted?, hs.isOpen]
      | make id | discard r => rfl
    | bridge label =>
      cases label with
      | publish x => exact hclosed x
      | consume =>
        apply Consumer.accepted?_eq_none
        intro call isHeld a rest hp
        have hplace := hi.place
        rw [hp] at hplace
        cases hplace
      | produce | raise | wake | loseConsumer | letGo => rfl
  · have hsend : Stock.send? p r m.depot.feed = none := by
      have hopen : m.depot.feed.isOpen = false := hs.isOpen
      simp [Stock.send?, Channel.send?, hopen]
    have hhands : r ∈ m.depot.hands := hmem
    simp only [step?, halive, Depot.supply?, hhands, hsend, if_true]
    rfl
  · have haccepts : m.bridge.link.feed.accepts = false := by
      rw [Channel.accepts, hs.isOpen, Bool.and_false]
    cases hmake
    have hpub : Feed.publish (.publish p id) m.depot.feed =
        ((Channel.make id m.bridge.link.feed).2,
          [.rejected ⟨id, m.bridge.link.feed.made⟩, .released ⟨id, m.bridge.link.feed.made⟩]) := by
      change m.bridge.link.feed.publish (.publish p id) = _
      simp [Channel.publish, Channel.make, hp, haccepts]
    simp only [step?, halive, Depot.supply?, hpub]
    rfl

theorem FollowsFailure.remnant {s : Source σ} {before : List Supply} {config : ThreadRequest}
    {taken : UInt32} {labels : List Label} (hm : FollowsFailure s before config taken h labels m) :
    ∃ d noted k, Depot.supplyAll? { feed := s.feed } before = some d ∧
      (begin s d config taken).run? h labels = some m ∧ m.bridge.Remnant noted k ∧
      k + labels.count (.bridge .consume) ≤ 6 ∧ Stock.IsSpent m.bridge.link.feed ∧
      (∀ e ∈ noted, e.isOfFailure) ∧
      (Tally.ofTrace noted).retirements.length = (if s.fault?.isNone then 1 else 0) ∧
      ∀ r ∈ (Feed.retire d.feed).2, .released r ∈ noted := by
  obtain ⟨d, hd, hc, hr⟩ := hm
  have hpublished : ∀ e ∈ d.noted, e.isPublishing := by
    obtain ⟨es, hnoted, hes⟩ := Depot.notes_supplyAll? hd
    rw [hnoted]
    exact hes
  obtain ⟨noted, hbegin, hfailure⟩ :=
    Source.remnant_of_failure { s with feed := d.feed } config taken hpublished hc
  obtain ⟨k, hk, hi⟩ := remnant_run? (m := begin s d config taken) hbegin hr
  have haccounts : (begin s d config taken).bridge.Accounts d.feed d.noted :=
    Source.accounts_create { s with feed := d.feed } config taken d.noted
  have hspent : Stock.IsSpent m.bridge.link.feed := by
    apply (orderly_run? haccounts.orderly hr).source
    intro p hp
    rw [hi.producer] at hp
    cases hp
  exact ⟨d, noted, k, hd, hr, hi, hk, hspent, hfailure⟩

/-- **A creation that gives no bridge leaves nothing behind.** In whatever way it fails, and in
whatever order its task, its callers and its publishers go on: the source is never read, the handler
is never invoked, nobody is told of a completion, and the task ends by itself. If the source is a
channel, then what it had accepted is released, and it turns all further records away. -/
theorem leavesNothing_of_failure (before : List Supply) (config : ThreadRequest) (taken : UInt32)
    (h : Handler) (labels : List Label) :
    (∀ {σ : Type} [Feed σ] [Stock σ] (s : Source σ) (m : Supplied σ),
      FollowsFailure s before config taken h labels m → m.LeavesNothing s h labels) ∧
    ∀ (fault? : Option StartFault) (m : Supplied Channel),
      FollowsFailure { feed := {}, fault? } before config taken h labels m →
      m.TurnsAway (Depot.acceptedIn { feed := {} } before) h := by
  constructor
  · intro σ _ _ s m hm
    obtain ⟨d, noted, k, -, -, hi, hk, -, hfailure, hretired, -⟩ := hm.remnant
    exact leavesNothing_of_remnant hi hfailure hretired (by omega)
  · intro fault? m hm
    obtain ⟨d, noted, k, hd, hr, hi, -, hspent, -, -, hreleased⟩ := hm.remnant
    refine turnsAway_of_remnant hi hspent fun r haccepted => ?_
    have hready : d.feed.Ready (Depot.acceptedIn { feed := {} } before) :=
      Depot.ready_supplyAll? ⟨rfl, rfl, rfl, by simp⟩ hd
    have hheld : r ∈ d.feed.records := by
      rw [Channel.records, hready.messages]
      exact List.mem_filterMap.mpr ⟨_, haccepted, rfl⟩
    have hmem : .released r ∈ m.bridge.link.trace := by
      obtain ⟨es, htrace, -⟩ := hi.trace
      rw [htrace]
      exact List.mem_append_left es (hreleased r hheld)
    have hatLeast := List.count_pos_iff.mpr hmem
    have hatMost := count_released_le_one ⟨rfl, rfl⟩ hd hr r
    omega

def oneLateBefore : List Supply := [.ask (.publish 0 1), .make 2]

def oneLateDepot : Depot Channel :=
  (Depot.supplyAll? { feed := {} } oneLateBefore).getD { feed := {} }

def oneLateConfig : ThreadRequest := { stackSize := some Config.stackLimit }

def oneLateLabels : List Label :=
  .supply (.send 0 ⟨2, 1⟩) :: List.replicate 3 (.bridge .consume) ++
    .bridge .letGo :: List.replicate 3 (.bridge .consume)

theorem leavesNothing_oneLate :
    ∃ m, FollowsFailure ({ feed := {} } : Source Channel) oneLateBefore oneLateConfig 0
        (fun _ _ => []) oneLateLabels m ∧
      m.bridge.consumer.place = .gone ∧ m.hands = [⟨2, 1⟩] ∧
      Event.releases m.bridge.link.trace = [⟨1, 0⟩] ∧
      m.LeavesNothing ({ feed := {} } : Source Channel) (fun _ _ => []) oneLateLabels ∧
      m.TurnsAway (Depot.acceptedIn { feed := {} } oneLateBefore) fun _ _ => [] := by
  have hd : Depot.supplyAll? { feed := ({} : Channel) } oneLateBefore = some oneLateDepot := by
    decide +kernel
  have hc : (({ feed := oneLateDepot.feed } : Source Channel).create oneLateConfig 0
      oneLateDepot.noted).failure?.isSome := by decide +kernel
  have hends : ((begin { feed := {} } oneLateDepot oneLateConfig 0).run? (fun _ _ => [])
      oneLateLabels).map (fun m => (m.bridge.consumer.place, m.hands,
        Event.releases m.bridge.link.trace)) = some (.gone, [⟨2, 1⟩], [⟨1, 0⟩]) := by
    decide +kernel
  obtain ⟨m, hr, hm⟩ := Option.map_eq_some_iff.mp hends
  simp only [Prod.mk.injEq] at hm
  obtain ⟨hplace, hhands, hreleased⟩ := hm
  have hfollows : FollowsFailure ({ feed := {} } : Source Channel) oneLateBefore oneLateConfig 0
      (fun _ _ => []) oneLateLabels m := ⟨oneLateDepot, hd, hc, hr⟩
  obtain ⟨hnothing, haway⟩ :=
    leavesNothing_of_failure oneLateBefore oneLateConfig 0 (fun _ _ => []) oneLateLabels
  exact ⟨m, hfollows, hplace, hhands, hreleased, hnothing _ m hfollows, haway none m hfollows⟩

end Supplied

end Handoff
