import Handoff.Proofs.Conveyance
import Handoff.Proofs.Refusal

/-! The stop requests that a bridge over a channel has seen: how many there were, how many of them
are still halfway, and what they have made of the channel. -/
namespace Handoff

namespace Tally

theorem retirements_isPrefix (y : Tally) (es : List Event) :
    y.retirements <+: (es.foldl add y).retirements := by
  induction es generalizing y with
  | nil => exact List.prefix_rfl
  | cons e rest ih =>
    refine List.IsPrefix.trans ?_ (ih (y.add e))
    cases e <;> simp

theorem mem_retirements {es : List Event} {v : Liveness} {panic? : Option Payload}
    (he : .fetcherDropped v panic? ∈ es) : panic? ∈ (ofTrace es).retirements := by
  obtain ⟨before, rest, rfl⟩ := List.append_of_mem he
  rw [ofTrace_append, List.foldl_cons]
  exact (retirements_isPrefix _ rest).subset (by simp)

end Tally

namespace Channel

/-- A stop has come through: the flag is set, and whoever waits in a fetch gets the end at the
latest where the wake-up stands, unless there is nobody left who could keep him waiting. -/
structure Heard (c : Channel) : Prop where
  isStopped : c.isStopped
  reaches : c.isOpen = false ∨ c.hasPublisher = false ∨ .wake ∈ c.messages

variable {c d : Channel} {o : Outcome} {rs : List Record} {x? : Option Message}

theorem Change.isStopped (hc : c.Change x? d) (hs : c.isStopped) : d.isStopped := by
  cases hc with
  | raise => rfl
  | wake => exact c.isStopped_wake.trans hs
  | take ht => exact ht.isStopped.trans hs

theorem Change.messages_subset (hc : c.Change x? d) : c.messages ⊆ d.messages := by
  cases hc with
  | raise => exact List.Subset.refl _
  | wake =>
    unfold Channel.wake send
    split <;> try split
    all_goals simp
  | take ht =>
    rw [ht.messages]
    exact List.subset_append_left _ _

theorem Fetch.isStopped (hf : c.Fetch d o rs) : d.isStopped = c.isStopped := by
  cases hf <;> rfl

theorem Fetch.hasPublisher (hf : c.Fetch d o rs) : d.hasPublisher = c.hasPublisher := by
  cases hf <;> rfl

theorem Fetch.wake_mem (hf : c.Fetch d o rs) (hw : .wake ∈ d.messages) : .wake ∈ c.messages := by
  cases hf with
  | record hm | failure hm =>
    rw [hm]
    exact List.mem_cons_of_mem _ hw
  | finish => cases hw

theorem Fetch.closed (hf : c.Fetch d o rs) (ho : d.isOpen = false) :
    c.isOpen = false ∨ c.isStopped ∨ .wake ∈ c.messages ∨ c.hasPublisher = false := by
  cases hf with
  | record | failure => exact .inl ho
  | finish hw =>
    rcases hw with hs | hm | ⟨-, hnone⟩
    · exact .inr (.inl hs)
    · exact .inr (.inr (.inl hm))
    · rcases Bool.and_eq_false_iff.mp hnone with hp | ho
      · exact .inr (.inr (.inr hp))
      · exact .inl ho

namespace Heard

theorem close (hc : c.Heard) : c.close.1.Heard := ⟨hc.isStopped, .inl rfl⟩

theorem change (hc : c.Heard) (hd : c.Change x? d) : d.Heard where
  isStopped := hd.isStopped hc.isStopped
  reaches := by
    rcases hc.reaches with ho | hp | hw
    · exact .inl (hd.isOpen.trans ho)
    · exact .inr (.inl (hd.of_hasPublisher hp).2)
    · exact .inr (.inr (hd.messages_subset hw))

theorem fetch (hc : c.Heard) (hf : c.Fetch d o rs) : d.Heard where
  isStopped := hf.isStopped.trans hc.isStopped
  reaches := by
    cases hf with
    | record hm | failure hm =>
      refine hc.reaches.imp_right (Or.imp_right fun hw => ?_)
      simpa [hm] using hw
    | finish => exact .inl rfl

end Heard

theorem heard_wake (hs : c.isStopped) : c.wake.Heard where
  isStopped := c.isStopped_wake.trans hs
  reaches := by
    cases hp : c.hasPublisher with
    | false => exact .inr (.inl (c.hasPublisher_wake.trans hp))
    | true =>
      cases ho : c.isOpen with
      | false => exact .inl (c.isOpen_wake.trans ho)
      | true => exact .inr (.inr (by simp [wake, hp, send, ho]))

theorem heard_stop (c : Channel) : (Feed.stop c).Heard := heard_wake (c := c.raise) rfl

end Channel

/-- The handler has requested a stop and not woken the source yet. -/
@[simp] def Consumer.Place.halfway : Consumer.Place → Nat
  | handling _ _ (.finishStop :: _) => 1
  | handling .. | fresh | receiving | returning _ | unwinding _ | awaiting | joining _ | resolving _
  | leaving _ | gone => 0

/-- The handler goes halfway through a stop request only on his way to the second half. -/
def Consumer.Place.IsWhole (place : Consumer.Place) : Prop :=
  ∀ call isHeld acts, place = .handling call isHeld acts → .finishStop ∉ acts.tail

theorem Consumer.Place.isWhole_of_ne {place : Consumer.Place}
    (hp : ∀ call isHeld acts, place ≠ .handling call isHeld acts) : place.IsWhole :=
  fun _ _ _ heq => (hp _ _ _ heq).elim

theorem Consumer.Place.isWhole_handling {call : Call} {isHeld : Bool} {acts : List Act}
    (ha : .finishStop ∉ acts.tail) : (handling call isHeld acts).IsWhole := by
  intro _ _ _ heq
  cases heq
  exact ha

theorem Consumer.Place.halfway_handling {call : Call} {isHeld : Bool} {acts : List Act}
    (ha : .finishStop ∉ acts) : (handling call isHeld acts).halfway = 0 := by
  unfold halfway
  split
  next heq =>
    cases heq
    exact (ha List.mem_cons_self).elim
  all_goals rfl

section Link

variable {σ : Type}

def Link.requests (l : Link σ) : Nat := l.trace.count .stopRequested

namespace Link

variable {l l' : Link σ}

theorem requests_of_trace {es : List Event} (ht : l'.trace = l.trace ++ es)
    (hes : .stopRequested ∉ es) : l'.requests = l.requests := by
  rw [requests, ht, List.count_append, List.count_eq_zero.mpr hes]
  rfl

variable [Feed σ]

theorem requests_raise (l : Link σ) : l.raise.requests = l.requests + 1 := by
  simp [requests, raise]

theorem requests_wake (l : Link σ) : l.wake.requests = l.requests := rfl

theorem requests_publish (l : Link σ) (x : Publishing) : (l.publish x).requests = l.requests :=
  requests_of_trace (trace_fed l _ _) fun hm => by
    cases Feed.publish_notes x l.feed _ hm

end Link

end Link

theorem Event.stopRequested_not_mem_releasing (rs : List Record) :
    .stopRequested ∉ releasing rs := by
  simp [releasing]

section Sides

variable {σ : Type} [Feed σ]

theorem Producer.Step.requests {p p' : Producer} {l l' : Link σ} (hs : p.Step l p' l') :
    l'.requests = l.requests := by
  cases hs with
  | @release exit hp =>
    refine Link.requests_of_trace (Link.trace_note l _) ?_
    cases exit <;> simp [Exit.farewell]
  | push | collectHandled => rfl
  | _ => simp [Link.requests, Event.releasing, List.count_eq_zero]

theorem Consumer.Step.requests {h : Handler} {exit? : Option (Exit × Nat)} {c c' : Consumer}
    {l l' : Link σ} (hs : c.Step h exit? l c' l')
    (hp : ∀ call isHeld rest, c.place ≠ .handling call isHeld (.stop :: rest)) :
    l'.requests = l.requests := by
  cases hs with
  | @act call isHeld a rest hplace =>
    cases a with
    | stop => exact (hp _ _ _ hplace).elim
    | finishStop | keep | setAside => rfl
    | releaseKept =>
      exact Link.requests_of_trace (Link.trace_note l _) (Event.stopRequested_not_mem_releasing _)
    | panic x =>
      refine Link.requests_of_trace (Link.trace_note l _) ?_
      cases isHeld <;> simp [leftover]
    | publish x => exact l.requests_publish x
  | @finish call isHeld =>
    refine Link.requests_of_trace (Link.trace_note l _) ?_
    cases isHeld <;> simp [leftover]
  | take | judge => exact Link.requests_of_trace (Link.trace_note _ _) (by simp)
  | @drop part =>
    cases part with
    | context => rfl
    | handler =>
      exact Link.requests_of_trace (Link.trace_note l _) (by simp [Event.releasing])
    | receiver =>
      exact Link.requests_of_trace (Link.trace_note _ _) (Event.stopRequested_not_mem_releasing _)
  | begin | drained | answer | unwind | join | giveUp | resolve | leave => rfl

end Sides

namespace Bridge

variable {σ : Type}

/-- The stop requests that have set the flag and not woken the source yet. -/
def halfway (b : Bridge σ) : Nat := b.wakes + b.consumer.place.halfway

/-- No fetcher is left, whether a producer has dropped his or there never was one. -/
def IsRetired (b : Bridge σ) : Prop := ∀ p, b.producer = some p → p.place.isRetired

/-- What a step means to the channel under a bridge and to the stop requests. -/
inductive Stirs (b b' : Bridge Channel) : Prop where
  | raise (hf : b'.link.feed = b.link.feed.raise) (hr : b'.link.requests = b.link.requests + 1)
      (hw : b'.halfway = b.halfway + 1) (hp : b'.producer = b.producer)
  | wake (hf : b'.link.feed = b.link.feed.wake) (hr : b'.link.requests = b.link.requests)
      (hw : b.halfway = b'.halfway + 1) (hp : b'.producer = b.producer)
  | take {x? : Option Message} (ht : b.link.feed.Takes x? b'.link.feed)
      (hr : b'.link.requests = b.link.requests) (hw : b'.halfway = b.halfway)
      (hp : b.IsRetired → b'.IsRetired)
  | fetch {o rs} (hf : b.link.feed.Fetch b'.link.feed o rs) (hp : ¬ b.IsRetired)
      (hr : b'.link.requests = b.link.requests) (hw : b'.halfway = b.halfway)
  | close (hf : b'.link.feed = b.link.feed.close.1) (hp : b'.IsRetired)
      (hr : b'.link.requests = b.link.requests) (hw : b'.halfway = b.halfway)

variable {b b' : Bridge Channel}

theorem Stirs.heard (hs : b.Stirs b') (hb : b.link.feed.Heard) : b'.link.feed.Heard := by
  cases hs with
  | raise hf => exact hf ▸ hb.change .raise
  | wake hf => exact hf ▸ hb.change .wake
  | take ht => exact hb.change (.take ht)
  | fetch hf => exact hb.fetch hf
  | close hf => exact hf ▸ hb.close

theorem Stirs.quiet {x? : Option Message} (ht : b.link.feed.Takes x? b'.link.feed)
    (hr : b'.link.requests = b.link.requests) (hp : b'.producer = b.producer)
    (hw : b'.wakes = b.wakes) (hc : b.consumer.place.halfway = 0)
    (hc' : b'.consumer.place.halfway = 0) : b.Stirs b' :=
  .take ht hr (by rw [halfway, halfway, hw, hc, hc']) fun hi => by rwa [IsRetired, hp]

end Bridge

namespace Consumer.Step

variable {h : Handler} {b : Bridge Channel} {c : Consumer} {l : Link Channel}

theorem stirs (hw : h.IsWhole) (hi : b.consumer.place.IsWhole)
    (hs : b.consumer.Step h b.exit? b.link c l) :
    b.Stirs { b with consumer := c, link := l } ∧ c.place.IsWhole := by
  cases hs' : hs with
  | @act call isHeld a rest hp =>
    have hrest : .finishStop ∉ rest := hi _ _ _ hp
    have htail : .finishStop ∉ rest.tail := fun hm => hrest (List.mem_of_mem_tail hm)
    have hplace (isHeld' : Bool) : (Place.handling call isHeld' rest).halfway = 0 :=
      Place.halfway_handling hrest
    cases a with
    | stop =>
      refine ⟨.raise rfl b.link.requests_raise ?_ rfl, Place.isWhole_handling hrest⟩
      simp [Bridge.halfway, Consumer.act, hp]
    | finishStop =>
      refine ⟨.wake rfl b.link.requests_wake ?_ rfl, Place.isWhole_handling htail⟩
      rw [Bridge.halfway, Bridge.halfway, hp]
      exact congrArg (b.wakes + · + 1) (hplace isHeld).symm
    | publish x =>
      refine ⟨.quiet (b.link.feed.takes_publish x) (hs.requests (by simp [hp])) rfl rfl
        (by simp [hp]) (hplace _), Place.isWhole_handling htail⟩
    | keep | setAside | releaseKept =>
      exact ⟨.quiet b.link.feed.takes_refl (hs.requests (by simp [hp])) rfl rfl (by simp [hp])
        (hplace _), Place.isWhole_handling htail⟩
    | panic x =>
      exact ⟨.quiet b.link.feed.takes_refl (hs.requests (by simp [hp])) rfl rfl (by simp [hp])
        rfl, Place.isWhole_of_ne (by simp [Consumer.act])⟩
  | @take call q hp hq =>
    have hwhole : .finishStop ∉ h b.consumer.invocations call.record := hw _ _
    exact ⟨.quiet b.link.feed.takes_refl (hs.requests (by simp [hp])) rfl rfl (by simp [hp])
      (Place.halfway_handling hwhole),
      Place.isWhole_handling fun hm => hwhole (List.mem_of_mem_tail hm)⟩
  | @drop part _ hp =>
    have hf : (b.consumer.dropPart b.link part).2.feed = b.link.feed := by cases part <;> rfl
    have htakes : b.link.feed.Takes none (b.consumer.dropPart b.link part).2.feed := by
      rw [hf]
      exact b.link.feed.takes_refl
    exact ⟨.quiet htakes (hs.requests (by simp [hp])) rfl rfl (by simp [hp]) rfl,
      Place.isWhole_of_ne (by simp)⟩
  | begin hp | drained hp | finish hp | answer hp | unwind hp | join hp | giveUp hp | judge hp
  | resolve hp | leave hp =>
    exact ⟨.quiet b.link.feed.takes_refl (hs.requests (by simp [hp])) rfl rfl (by simp [hp]) rfl,
      Place.isWhole_of_ne (by simp)⟩

end Consumer.Step

theorem Producer.Step.stirs {b : Bridge Channel} {p p' : Producer} {l : Link Channel}
    (hp : b.producer = some p) (hs : p.Step b.link p' l) :
    b.Stirs { b with producer := some p', link := l } := by
  have hrequests := hs.requests
  have hidle (hf : l.feed = b.link.feed) (hplace : p.place.isRetired → p'.place.isRetired) :
      b.Stirs { b with producer := some p', link := l } := by
    have htakes : b.link.feed.Takes none l.feed := by
      rw [hf]
      exact b.link.feed.takes_refl
    refine .take htakes hrequests rfl fun hi q hq => ?_
    cases hq
    exact hplace (hi p hp)
  have hfetch {o : Outcome} {rs : List Record} (hf : b.link.feed.Fetch l.feed o rs)
      (hplace : p.place.isRetired = false) : b.Stirs { b with producer := some p', link := l } := by
    refine .fetch hf (fun hi => ?_) hrequests rfl
    have hretired := hi p hp
    rw [hplace] at hretired
    cases hretired
  cases hs with
  | enterWaiting hplace hf =>
    obtain ⟨rfl, rfl⟩ := Channel.eq_of_enter hf
    exact hidle rfl (by simp [hplace])
  | enterAnswered hplace hf => exact hfetch (Channel.fetch_of_enter hf) (by simp [hplace])
  | receive hplace hf => exact hfetch (Channel.fetch_of_receive? hf) (by simp [hplace])
  | retire hplace hf =>
    cases hf
    refine .close rfl (fun q hq => ?_) hrequests rfl
    cases hq
    rfl
  | start hplace | pushRefused hplace | push hplace | collectHandled hplace
  | collectFailed hplace | mark hplace | release hplace =>
    exact hidle rfl (by simp [hplace])

namespace Bridge

/-- What the stop requests have made of the channel under a bridge, at every moment. -/
structure Requested (b : Bridge Channel) : Prop where
  isStopped : b.link.feed.isStopped ↔ 0 < b.link.requests
  halfway : b.halfway ≤ b.link.requests
  wake : .wake ∈ b.link.feed.messages → b.link.feed.isStopped
  /-- As soon as one of them has returned it has come through. -/
  heard : b.halfway < b.link.requests → b.link.feed.Heard
  /-- While there is a fetcher and someone to publish, nothing but a stop closes the channel. -/
  closed : b.link.feed.isOpen = false →
    b.link.feed.isStopped ∨ b.link.feed.hasPublisher = false ∨ b.IsRetired

namespace Requested

variable {b b' : Bridge Channel}

theorem stirs (hi : b.Requested) (hs : b.Stirs b') : b'.Requested := by
  have hle := hi.halfway
  have hstays (hlt : b.halfway < b.link.requests) : b'.link.feed.Heard := hs.heard (hi.heard hlt)
  cases hs with
  | raise hf hr hw hp =>
    refine ⟨?_, by omega, fun _ => ?_, fun hlt => hstays (by omega),
      fun _ => .inl ?_⟩
    · rw [hf, hr]
      exact iff_of_true rfl (by omega)
    · rw [hf]
      rfl
    · rw [hf]
      rfl
  | wake hf hr hw hp =>
    have hstop : b.link.feed.isStopped := hi.isStopped.mpr (by omega)
    have hheard : b'.link.feed.Heard := by
      rw [hf]
      exact Channel.heard_wake hstop
    refine ⟨?_, by omega, fun _ => hheard.isStopped, fun _ => hheard,
      fun _ => .inl hheard.isStopped⟩
    rw [hr]
    exact iff_of_true hheard.isStopped (hi.isStopped.mp hstop)
  | take ht hr hw hp =>
    refine ⟨?_, by omega, fun hm => ?_, fun hlt => hstays (by omega), fun ho => ?_⟩
    · rw [ht.isStopped, hr]
      exact hi.isStopped
    · rw [ht.isStopped]
      exact hi.wake (ht.wake_mem hm)
    · rw [ht.isOpen] at ho
      rw [ht.isStopped]
      exact (hi.closed ho).imp_right (Or.imp ht.hasPublisher hp)
  | @fetch o rs hf hp hr hw =>
    refine ⟨?_, by omega, fun hm => ?_, fun hlt => hstays (by omega), fun ho => ?_⟩
    · rw [hf.isStopped, hr]
      exact hi.isStopped
    · rw [hf.isStopped]
      exact hi.wake (hf.wake_mem hm)
    · rw [hf.isStopped, hf.hasPublisher]
      rcases hf.closed ho with hclosed | hstop | hwake | hnone
      · exact (hi.closed hclosed).imp_right fun h => .inl (h.resolve_right hp)
      · exact .inl hstop
      · exact .inl (hi.wake hwake)
      · exact .inr (.inl hnone)
  | close hf hp hr hw =>
    refine ⟨?_, by omega, fun hm => ?_, fun hlt => hstays (by omega),
      fun _ => .inr (.inr hp)⟩
    · rw [hf, hr]
      exact hi.isStopped
    · rw [hf] at hm
      cases hm

end Requested

end Bridge

namespace Supplied

variable {h : Handler} {m m' : Supplied Channel} {label : Label}

theorem stirs_step? (hw : h.IsWhole) (hi : m.bridge.consumer.place.IsWhole)
    (hs : m.step? h label = some m') :
    m.bridge.Stirs m'.bridge ∧ m'.bridge.consumer.place.IsWhole := by
  cases label with
  | bridge label =>
    obtain ⟨b, hb, rfl⟩ := Option.map_eq_some_iff.mp hs
    cases (Bridge.step?_eq_some_iff.mp hb).2 with
    | produce hp hside => exact ⟨hside.stirs hp, hi⟩
    | consume hside => exact hside.stirs hw hi
    | raise hp => exact ⟨.raise rfl m.bridge.link.requests_raise (Nat.add_right_comm ..) rfl, hi⟩
    | wake hpos =>
      refine ⟨.wake rfl rfl ?_ rfl, hi⟩
      simp only [Bridge.halfway]
      omega
    | publish x =>
      exact ⟨.take (Channel.takes_publish _ x) (m.bridge.link.requests_publish x) rfl id, hi⟩
    | loseConsumer hc =>
      obtain ⟨hplace, parts, rfl⟩ := Consumer.lose?_eq_some hc
      refine ⟨.quiet (Channel.takes_refl _) rfl rfl rfl ?_ rfl,
        Consumer.Place.isWhole_of_ne (by simp)⟩
      rcases hplace with hp | hp | hp <;> simp [hp]
    | letGo => exact ⟨.take (Channel.takes_refl _) rfl rfl id, hi⟩
  | supply x =>
    obtain ⟨d, hd, hes, rfl⟩ := step?_supply hs
    refine ⟨.take (Depot.takes_supply? hd)
      (Link.requests_of_trace (Link.trace_fed _ _ _) ?_) rfl id, hi⟩
    intro hm
    cases hes _ hm

/-- What holds at every moment of a bridge over a channel, or of what a failed creation has left. -/
structure Stoppable (m : Supplied Channel) : Prop where
  requested : m.bridge.Requested
  isWhole : m.bridge.consumer.place.IsWhole
  orderly : m.bridge.Orderly

theorem Stoppable.step? (hw : h.IsWhole) (hi : m.Stoppable) (hs : m.step? h label = some m') :
    m'.Stoppable :=
  have hstirs := stirs_step? hw hi.isWhole hs
  ⟨hi.requested.stirs hstirs.1, hstirs.2, orderly_step? hi.orderly hs⟩

theorem run?_eq_foldlM {σ : Type} [Feed σ] [Stock σ] (m : Supplied σ) (labels : List Label) :
    m.run? h labels = labels.foldlM (step? h) m :=
  eq_foldlM (fun _ => rfl) (fun _ _ _ => rfl) m labels

theorem Stoppable.run? (hw : h.IsWhole) (hi : m.Stoppable) {labels : List Label}
    (hr : m.run? h labels = some m') : m'.Stoppable := by
  rw [run?_eq_foldlM] at hr
  exact foldlM_keeps (fun _ _ _ _ hi hs => hi.step? hw hs) hi hr

end Supplied

structure Channel.Unstopped (c : Channel) : Prop where
  isStopped : c.isStopped = false
  wake : .wake ∉ c.messages

theorem Channel.Unstopped.close {c : Channel} (hc : c.Unstopped) : c.close.1.Unstopped :=
  ⟨hc.isStopped, by simp [Channel.close]⟩

theorem Channel.Unstopped.requested {c : Channel} (hc : c.Unstopped) {b : Bridge Channel}
    (hf : b.link.feed = c) (hr : b.link.requests = 0) (hw : b.halfway = 0)
    (ho : c.isOpen = false → b.IsRetired) : b.Requested where
  isStopped := by simp [hf, hr, hc.isStopped]
  halfway := by omega
  wake hm := (hc.wake (hf ▸ hm)).elim
  heard hlt := by omega
  closed hclosed := .inr (.inr (ho (hf ▸ hclosed)))

theorem Channel.Heard.requested {c : Channel} (hc : c.Heard) {b : Bridge Channel}
    (hf : b.link.feed = c) (hr : 0 < b.link.requests) (hw : b.halfway = 0) : b.Requested where
  isStopped := by
    rw [hf]
    exact iff_of_true hc.isStopped hr
  halfway := by omega
  wake _ := hf ▸ hc.isStopped
  heard _ := hf ▸ hc
  closed _ := .inl (hf ▸ hc.isStopped)

/-- A failed creation has requested a stop or not, and its channel shows which. -/
theorem Source.Failing.requested {s : Source Channel} {config : ThreadRequest} {l l' : Link Channel}
    {failure : CreateFailure} (hf : s.Failing config l failure l') (hl : l.feed.Unstopped)
    (hr : l.requests = 0) (generation taken : UInt32) :
    (Creation.remains l' failure generation taken).bridge.Requested := by
  obtain ⟨-, hfeed, panic?, ht⟩ := hf.left
  have hrequests : l'.requests = if failure.asksToStop then 1 else 0 := by
    have hdropped : (if s.fault?.isNone then [Event.fetcherDropped l.liveness panic?]
        else []).count .stopRequested = 0 := by
      split <;> simp
    rw [Link.requests, ht, List.count_append, List.count_append, List.count_append,
      List.count_eq_zero.mpr (Event.stopRequested_not_mem_releasing _), hdropped,
      show l.trace.count .stopRequested = 0 from hr]
    split <;> simp
  cases ha : failure.asksToStop with
  | true =>
    rw [ha] at hfeed hrequests
    have hpos : 0 < l'.requests := by
      rw [hrequests]
      exact Nat.one_pos
    exact (Channel.heard_stop _).requested hfeed hpos rfl
  | false =>
    rw [ha] at hfeed hrequests
    exact hl.close.requested hfeed hrequests rfl fun _ _ hp => by cases hp

namespace Depot

variable {before : List Supply} {d : Depot Channel}

theorem unstopped_supplyAll? (hd : supplyAll? { feed := {} } before = some d) :
    d.feed.Unstopped ∧ d.feed.isOpen := by
  have hready : d.feed.Ready (acceptedIn { feed := {} } before) :=
    ready_supplyAll? ⟨rfl, rfl, rfl, by simp⟩ hd
  exact ⟨⟨hready.isStopped, by rw [hready.messages]; exact hready.wake⟩, hready.isOpen⟩

theorem requests_start (hd : supplyAll? { feed := {} } before = some d)
    {es : List Event} (hes : .stopRequested ∉ es) (f : Channel) :
    (Link.start f (d.noted ++ es)).requests = 0 := by
  obtain ⟨asked, hnoted, hasked⟩ := notes_supplyAll? hd
  rw [Link.requests, Link.trace_start, List.count_eq_zero, hnoted, List.nil_append,
    List.mem_append, not_or]
  refine ⟨fun hm => ?_, hes⟩
  cases hasked _ hm

end Depot

namespace Supplied

variable {before : List Supply} {d : Depot Channel}

/-- Whatever becomes of a creation over a channel that callers have supplied. -/
theorem stoppable_begin (hd : Depot.supplyAll? { feed := {} } before = some d) (s : Source Channel)
    (config : ThreadRequest) (taken : UInt32) : (begin s d config taken).Stoppable := by
  obtain ⟨hunstopped, hopen⟩ := Depot.unstopped_supplyAll? hd
  have hstart : (Link.start d.feed (d.noted ++ [.starting])).requests = 0 :=
    Depot.requests_start hd (by simp) d.feed
  have horderly : (begin s d config taken).bridge.Orderly :=
    (Source.accounts_create { s with feed := d.feed } config taken d.noted).orderly
  cases hc : (Source.create { s with feed := d.feed } config taken d.noted).failure? with
  | none =>
    have heq := Source.create_eq { s with feed := d.feed } config taken d.noted hc
    refine ⟨?_, ?_, horderly⟩ <;> rw [begin, heq]
    · refine hunstopped.requested rfl ?_ rfl fun hclosed => ?_
      · exact (Link.requests_of_trace (Link.trace_note _ _) (by simp)).trans hstart
      · cases hopen.symm.trans hclosed
    · exact Consumer.Place.isWhole_of_ne (by simp)
  | some failure =>
    obtain ⟨l, g, hf, heq⟩ := Source.failing_of_failure _ config taken d.noted hc
    refine ⟨?_, ?_, horderly⟩ <;> rw [begin, heq]
    · exact hf.requested hunstopped hstart g g
    · exact Consumer.Place.isWhole_of_ne (by simp [Creation.remains])

def beginOutside {σ : Type} [Feed σ] (s : Source σ) (d : Depot σ) (taken : UInt32) :
    Supplied σ where
  bridge := (({ s with feed := d.feed } : Source σ).createOutside taken d.noted).bridge
  hands := d.hands

theorem stoppable_beginOutside (hd : Depot.supplyAll? { feed := {} } before = some d)
    (s : Source Channel) (taken : UInt32) : (beginOutside s d taken).Stoppable := by
  obtain ⟨hunstopped, -⟩ := Depot.unstopped_supplyAll? hd
  have hes : .stopRequested ∉ Event.handlerDropped :: Event.releasing d.feed.close.2 := by
    simp [Event.releasing]
  have hstart : (beginOutside s d taken).bridge.link.requests = 0 :=
    Depot.requests_start hd hes d.feed.close.1
  refine ⟨hunstopped.close.requested rfl hstart rfl fun _ p hp => ?_,
    Consumer.Place.isWhole_of_ne fun _ _ _ heq => ?_, (Source.accounts_createOutside _ _ _).orderly⟩
  · cases hp
  · cases heq

/-- What callers who have supplied a fresh channel get from a creation: a bridge, or what is left
where none comes of it. -/
inductive Started : Bool → Supplied Channel → Prop where
  | created {before : List Supply} {d : Depot Channel}
      (hd : Depot.supplyAll? { feed := {} } before = some d) (s : Source Channel)
      (config : ThreadRequest) (taken : UInt32) :
    Started ({ s with feed := d.feed }.create config taken d.noted).failure?.isSome
      (begin s d config taken)
  | outside {before : List Supply} {d : Depot Channel}
      (hd : Depot.supplyAll? { feed := {} } before = some d) (s : Source Channel) (taken : UInt32) :
    Started true (beginOutside s d taken)

namespace Started

variable {failed : Bool}

theorem stoppable (hm : Started failed m) : m.Stoppable := by
  cases hm with
  | created hd s config taken => exact stoppable_begin hd s config taken
  | outside hd s taken => exact stoppable_beginOutside hd s taken

theorem conserved (hm : Started failed m) :
    Conserved 0 m.bridge.link.feed.made [] m.records := by
  have hfresh : Stock.Fresh ({} : Channel) := ⟨rfl, rfl⟩
  cases hm with
  | @created _ d hd s config taken =>
    have haccounts : (begin s d config taken).bridge.Accounts d.feed d.noted :=
      Source.accounts_create { s with feed := d.feed } config taken d.noted
    exact haccounts.conserved_begin hfresh hd
  | @outside _ d hd s taken =>
    have haccounts : (beginOutside s d taken).bridge.Accounts d.feed d.noted :=
      Source.accounts_createOutside { s with feed := d.feed } taken d.noted
    exact haccounts.conserved_begin hfresh hd

theorem copies_le_one (hm : Started failed m) {labels : List Label}
    (hr : m.run? h labels = some m') (n : Nat) : Record.copies n m'.records ≤ 1 :=
  (hm.conserved.trans (conserved_run? hr)).copies_le_one n

/-- A bridge has a producer, who has not dropped his fetcher yet; what is left without a bridge has
none. -/
theorem producer (hm : Started failed m) :
    (failed = true ∧ m.bridge.producer = none) ∨
      (failed = false ∧ m.bridge.Holds fun p _ (l : Link Channel) => p.Tidy l) := by
  cases hm with
  | @created _ d hd s config taken =>
    cases hc : (Source.create { s with feed := d.feed } config taken d.noted).failure? with
    | none =>
      right
      have hquiet := Depot.isQuiet_supplyAll? hd (by simp)
      obtain ⟨p, hp, hf⟩ := Source.fresh_create { s with feed := d.feed } config taken hquiet hc
      exact ⟨rfl, p, hp, hf.informed.1⟩
    | some failure =>
      left
      obtain ⟨l, g, -, heq⟩ := Source.failing_of_failure _ config taken d.noted hc
      exact ⟨rfl, by rw [begin, heq]; rfl⟩
  | outside hd s taken => exact .inl ⟨rfl, rfl⟩

end Started

end Supplied

theorem Bridge.invariant_tidy {σ : Type} [Feed σ] (h : Handler) :
    Invariant h (fun _ => True) (fun p _ (l : Link σ) => p.Tidy l) where
  produce _ hi hs := hi.produce hs
  consume _ hi _ hs := hi.frame hs.frame
  aside _ _ hi := hi.frame (Link.aside_outside _ _).frame
  lose _ hi _ := hi
  letGo _ hi := hi

namespace Supplied

variable {h : Handler} {m m' : Supplied Channel} {labels : List Label}

theorem producer_eq_none_of_run (hp : m.bridge.producer = none) (hr : m.run? h labels = some m') :
    m'.bridge.producer = none := by
  rw [run?_eq_foldlM] at hr
  refine foldlM_keeps (P := fun m : Supplied Channel => m.bridge.producer = none)
    (fun a b label _ ha hs => ?_) hp hr
  by_cases hl : label = .bridge .produce
  · subst hl
    obtain ⟨b, hb, -⟩ := Option.map_eq_some_iff.mp hs
    cases (Bridge.step?_eq_some_iff.mp hb).2 with
    | produce hq =>
      rw [ha] at hq
      cases hq
  · exact (change_step? hl hs).2.2.trans ha

theorem tidy_of_run (hi : m.bridge.Holds fun p _ (l : Link Channel) => p.Tidy l)
    (hr : m.run? h labels = some m') :
    m'.bridge.Holds fun p _ (l : Link Channel) => p.Tidy l := by
  rw [run?_eq_foldlM] at hr
  refine foldlM_keeps (P := fun m : Supplied Channel =>
    m.bridge.Holds fun p _ (l : Link Channel) => p.Tidy l) (fun a b label _ ha hs => ?_) hi hr
  exact holds_step? (Bridge.invariant_tidy h) (fun p _ _ _ hs hi => hi.frame hs.frame)
    (fun _ _ => trivial) hs ha

/-- The fetching end of the source is gone: no bridge has come of the creation, or the producer has
dropped his fetcher. -/
def IsGone (failed : Bool) (m : Supplied Channel) : Prop :=
  failed = true ∨ ∃ v panic?, .fetcherDropped v panic? ∈ m.bridge.link.trace

theorem Started.isRetired_iff {failed : Bool} (hm : Started failed m)
    (hr : m.run? h labels = some m') : m'.bridge.IsRetired ↔ m'.IsGone failed := by
  rcases hm.producer with ⟨rfl, hp⟩ | ⟨rfl, hi⟩
  · refine iff_of_true (fun p hp' => ?_) (.inl rfl)
    rw [producer_eq_none_of_run hp hr] at hp'
    cases hp'
  · obtain ⟨p, hp, htidy⟩ := tidy_of_run hi hr
    cases hplace : p.place.isRetired with
    | true =>
      obtain ⟨panic?, -, hdropped⟩ := htidy.retired hplace
      refine iff_of_true (fun q hq => ?_) (.inr ⟨_, _, hdropped⟩)
      cases hp.symm.trans hq
      exact hplace
    | false =>
      refine iff_of_false (fun hi => ?_) ?_
      · have hretired := hi p hp
        rw [hplace] at hretired
        cases hretired
      · rintro (hfailed | ⟨v, panic?, hdropped⟩)
        · cases hfailed
        · have hmem := Tally.mem_retirements hdropped
          rw [htidy.unretired hplace] at hmem
          cases hmem

end Supplied

end Handoff
