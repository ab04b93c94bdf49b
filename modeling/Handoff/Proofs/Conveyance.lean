import Handoff.Proofs.Acceptance

/-! What a channel accepts while a bridge runs over it, from whomever, and that no step loses sight
of it. -/
namespace Handoff

/-- Whoever stops from inside the handler requests a whole stop. -/
def Handler.IsWhole (h : Handler) : Prop := ∀ n r, .finishStop ∉ h n r

def Supply.accepted? (c : Channel) : Supply → Option Message
  | .ask x => c.accepted? x
  | .send p r => if c.isAlive p && c.isOpen then some (.record r) else none
  | .make _ | .discard _ => none

def Consumer.accepted? (c : Consumer) (f : Channel) : Option Message :=
  match c.place with
  | .handling _ _ (.publish x :: _) => f.accepted? x
  | _ => none

def Depot.acceptedIn (d : Depot Channel) : List Supply → List Message
  | [] => []
  | x :: rest => (x.accepted? d.feed).toList ++
      ((d.supply? x).elim [] fun next => next.acceptedIn rest)

namespace Supplied

def accepted? (m : Supplied Channel) : Label → Option Message
  | .supply x => x.accepted? m.bridge.link.feed
  | .bridge (.publish x) => m.bridge.link.feed.accepted? x
  | .bridge .consume => m.bridge.consumer.accepted? m.bridge.link.feed
  | .bridge _ => none

def acceptedIn (h : Handler) (m : Supplied Channel) : List Label → List Message
  | [] => []
  | label :: rest => (m.accepted? label).toList ++
      ((m.step? h label).elim [] fun next => next.acceptedIn h rest)

end Supplied

namespace Depot

variable {d d' : Depot Channel} {x : Supply}

theorem takes_supply? (hs : d.supply? x = some d') :
    d.feed.Takes (x.accepted? d.feed) d'.feed := by
  cases x with
  | ask x =>
    cases hs
    exact d.feed.takes_publish x
  | make n =>
    cases hs
    exact Channel.takes_none rfl rfl rfl id
  | send p r =>
    simp only [supply?, Option.ite_none_right_eq_some] at hs
    obtain ⟨-, hs⟩ := hs
    split at hs
    next f hf =>
      cases hs
      obtain ⟨hp, ho, ht⟩ := Channel.takes_send? hf
      simpa [Supply.accepted?, hp, ho] using ht
    next hf =>
      cases hs
      have hn : (d.feed.isAlive p && d.feed.isOpen) = false := by
        cases ha : d.feed.isAlive p && d.feed.isOpen with
        | false => rfl
        | true =>
          replace hf : d.feed.send? p r = none := hf
          rw [Channel.send?, if_pos ha] at hf
          cases hf
      simpa [Supply.accepted?, hn] using Channel.takes_none (c := d.feed) rfl rfl rfl id
  | discard r =>
    simp only [supply?, Option.ite_none_right_eq_some, Option.some.injEq] at hs
    obtain ⟨-, rfl⟩ := hs
    exact Channel.takes_none rfl rfl rfl id

end Depot

namespace Supplied

variable {σ : Type} [Feed σ] [Stock σ] {h : Handler} {m m' : Supplied σ}

omit [Feed σ] [Stock σ] in
theorem aside_fed (l : Link σ) (f : σ) {es : List Event} (hes : ∀ e ∈ es, e.isPublishing) :
    l.Aside (l.fed f es) :=
  l.aside_fed f fun e he => Event.isQuiet_of_isPublishing (hes e he)

theorem holds_step? {allowed : Bridge.Label → Prop} {I : Producer → Consumer → Link σ → Prop}
    (hI : Bridge.Invariant h allowed I) (haside : ∀ p c l l', l.Aside l' → I p c l → I p c l')
    {label : Label} (ha : ∀ l, label = .bridge l → allowed l) (hs : m.step? h label = some m')
    (hb : m.bridge.Holds I) : m'.bridge.Holds I := by
  cases label with
  | bridge label =>
    obtain ⟨b, hstep, rfl⟩ := Option.map_eq_some_iff.mp hs
    exact hI.step (ha label rfl) hstep hb
  | supply x =>
    obtain ⟨d, -, hes, rfl⟩ := step?_supply hs
    obtain ⟨p, hp, hi⟩ := hb
    exact ⟨p, hp, haside _ _ _ _ (aside_fed _ _ hes) hi⟩

theorem trace_grows_of_step {label : Label} (hs : m.step? h label = some m') :
    m.bridge.link.trace <+: m'.bridge.link.trace := by
  cases label with
  | bridge label =>
    obtain ⟨b, hb, rfl⟩ := Option.map_eq_some_iff.mp hs
    exact Bridge.trace_grows_of_step hb
  | supply x =>
    obtain ⟨d, -, hes, rfl⟩ := step?_supply hs
    exact (aside_fed _ _ hes).trace_grows

end Supplied

namespace Consumer

variable {h : Handler} {exit? : Option (Exit × Nat)} {c c' : Consumer} {l l' : Link Channel}

theorem change_act {call : Call} {isHeld : Bool} {a : Act} {rest : List Act}
    (hp : c.place = .handling call isHeld (a :: rest)) :
    l.feed.Change (c.accepted? l.feed) (c.act l call isHeld rest a).2.feed := by
  cases a with
  | stop =>
    simp only [accepted?, hp]
    exact .raise
  | finishStop =>
    simp only [accepted?, hp]
    exact .wake
  | publish x =>
    simp only [accepted?, hp]
    exact .take (l.feed.takes_publish x)
  | keep | setAside | releaseKept | panic _ =>
    simp only [accepted?, hp]
    exact .refl _

theorem accepted?_eq_none {f : Channel} (hp : ∀ call isHeld a rest,
    c.place ≠ .handling call isHeld (a :: rest)) : c.accepted? f = none := by
  unfold accepted?
  split
  next hplace => exact (hp _ _ _ _ hplace).elim
  next => rfl

theorem Step.change (hs : c.Step h exit? l c' l') :
    l.feed.Change (c.accepted? l.feed) l'.feed := by
  cases hs with
  | act hp => exact change_act hp
  | @drop part _ hp =>
    rw [accepted?_eq_none (by simp [hp])]
    cases part <;> exact .refl _
  | begin hp | take hp | drained hp | finish hp | answer hp | unwind hp | join hp | giveUp hp
  | judge hp | resolve hp | leave hp =>
    rw [accepted?_eq_none (by simp [hp])]
    exact .refl _

end Consumer

theorem Channel.takes_refl (c : Channel) : c.Takes none c := takes_none rfl rfl rfl id

theorem Consumer.Step.takes {h : Handler} (hw : h.IsWhole) {exit? : Option (Exit × Nat)}
    {c c' : Consumer} {l l' : Link Channel} (hs : c.Step h exit? l c' l')
    (ha : ∀ call isHeld acts, c.place = .handling call isHeld acts → .finishStop ∉ acts)
    (hq : .stopRequested ∉ l'.trace) :
    l.feed.Takes (c.accepted? l.feed) l'.feed ∧
      ∀ call isHeld acts, c'.place = .handling call isHeld acts → .finishStop ∉ acts := by
  cases hs with
  | @act call isHeld a rest hp =>
    have hacts := ha _ _ _ hp
    have hrest : .finishStop ∉ rest := fun hm => hacts (List.mem_cons_of_mem _ hm)
    cases a with
    | stop => exact (hq (by simp [Consumer.act, Link.raise])).elim
    | finishStop => exact (hacts List.mem_cons_self).elim
    | publish x =>
      refine ⟨?_, fun _ _ _ hplace => ?_⟩
      · simp only [accepted?, hp]
        exact l.feed.takes_publish x
      · cases hplace
        exact hrest
    | keep | setAside | releaseKept =>
      refine ⟨?_, fun _ _ _ hplace => ?_⟩
      · simp only [accepted?, hp]
        exact l.feed.takes_refl
      · cases hplace
        exact hrest
    | panic x =>
      refine ⟨?_, fun _ _ _ hplace => ?_⟩
      · simp only [accepted?, hp]
        exact l.feed.takes_refl
      · cases hplace
  | take hp hq =>
    refine ⟨?_, fun _ _ _ hplace => ?_⟩
    · rw [accepted?_eq_none (by simp [hp])]
      exact l.feed.takes_refl
    · cases hplace
      exact hw _ _
  | @drop part _ hp =>
    refine ⟨?_, fun _ _ _ hplace => ?_⟩
    · rw [accepted?_eq_none (by simp [hp])]
      cases part <;> exact l.feed.takes_refl
    · cases hplace
  | begin hp | drained hp | finish hp | answer hp | unwind hp | join hp | giveUp hp | judge hp
  | resolve hp | leave hp =>
    refine ⟨?_, fun _ _ _ hplace => ?_⟩
    · rw [accepted?_eq_none (by simp [hp])]
      exact l.feed.takes_refl
    · cases hplace

/-- What holds of a channel and of those who could stop it while no stop was requested. -/
structure Undisturbed (accepted : List Message) (b : Bridge Channel) : Prop where
  isStopped : b.link.feed.isStopped = false
  wake : .wake ∉ b.link.feed.messages
  wakes : b.wakes = 0
  acts : ∀ call isHeld acts, b.consumer.place = .handling call isHeld acts → .finishStop ∉ acts
  ended : .endMarker ∈ (Tally.ofTrace b.link.trace).outcomes →
    b.link.feed.hasPublisher = false ∧ accepted = b.link.heard

namespace Undisturbed

variable {accepted : List Message} {b b' : Bridge Channel}

theorem takes (hi : Undisturbed accepted b) {x? : Option Message}
    (ht : b.link.feed.Takes x? b'.link.feed)
    (hy : (Tally.ofTrace b'.link.trace).outcomes = (Tally.ofTrace b.link.trace).outcomes)
    (hw : b'.wakes = b.wakes)
    (ha : ∀ call isHeld acts, b'.consumer.place = .handling call isHeld acts →
      .finishStop ∉ acts) : Undisturbed (accepted ++ x?.toList) b' where
  isStopped := ht.isStopped.trans hi.isStopped
  wake hw := hi.wake (ht.wake_mem hw)
  wakes := hw.trans hi.wakes
  acts := ha
  ended he := by
    rw [hy] at he
    obtain ⟨hp, hheard⟩ := hi.ended he
    have hx : x? = none := ((Channel.Change.take ht).of_hasPublisher hp).1
    refine ⟨ht.hasPublisher hp, ?_⟩
    rw [hheard, hx, Link.heard, Link.heard, hy, Option.toList_none, List.append_nil]

theorem linked (hi : Undisturbed accepted b) (producer : Option Producer) {l : Link Channel}
    (hs : l.feed.isStopped = b.link.feed.isStopped)
    (hm : .wake ∈ l.feed.messages → .wake ∈ b.link.feed.messages)
    (he : .endMarker ∈ (Tally.ofTrace l.trace).outcomes →
      l.feed.hasPublisher = false ∧ accepted = l.heard) :
    Undisturbed accepted { b with producer := producer, link := l } :=
  ⟨hs.trans hi.isStopped, fun h => hi.wake (hm h), hi.wakes, hi.acts, he⟩

/-- The end comes only once all publishers are gone and all messages were fetched. -/
theorem produce (hi : Undisturbed accepted b) {p p' : Producer} {l' : Link Channel}
    (hc : b.link.Conveys accepted) (ht : p.Told (.ofTrace b.link.trace))
    (ho : p.place.isOut = false → b.link.feed.isOpen) (hs : p.Step b.link p' l') :
    Undisturbed accepted { b with producer := some p', link := l' } := by
  have hkept (hp : l'.feed.hasPublisher = b.link.feed.hasPublisher)
      (hy : (Tally.ofTrace l'.trace).outcomes = (Tally.ofTrace b.link.trace).outcomes) :
      .endMarker ∈ (Tally.ofTrace l'.trace).outcomes →
        l'.feed.hasPublisher = false ∧ accepted = l'.heard := by
    unfold Link.heard
    rw [hp, hy]
    exact hi.ended
  cases hs.reads with
  | idle hf _ hy =>
    exact hi.linked _ (by rw [hf]) (by rw [hf]; exact id) (hkept (by rw [hf]) hy)
  | retire hf _ hy =>
    refine hi.linked _ (by rw [hf]; rfl) (fun hm => ?_) (hkept (by rw [hf]; rfl) hy)
    rw [hf] at hm
    cases hm
  | @fetch o rs hf hp _ hy _ =>
    have hnone : .endMarker ∉ (Tally.ofTrace b.link.trace).outcomes := by
      intro he
      have hout := ht.isOut he rfl
      rw [hp] at hout
      cases hout
    have hfirst (hne : o ≠ .endMarker) : .endMarker ∉ (Tally.ofTrace l'.trace).outcomes := by
      rw [hy, List.mem_append, List.mem_singleton]
      exact fun he => he.elim hnone fun heq => hne heq.symm
    generalize hd : l'.feed = d at hf
    cases hf with
    | record hm | failure hm =>
      refine hi.linked _ (by rw [hd]) (fun hmem => ?_) fun he => (hfirst (by simp) he).elim
      rw [hd] at hmem
      rw [hm]
      exact List.mem_cons_of_mem _ hmem
    | finish hw =>
      have hopen := ho hp
      obtain ⟨hempty, hpub⟩ : b.link.feed.messages = [] ∧ b.link.feed.hasPublisher = false := by
        rcases hw with hstop | hwake | ⟨hempty, hpub⟩
        · rw [hi.isStopped] at hstop
          cases hstop
        · exact (hi.wake hwake).elim
        · exact ⟨hempty, by simpa [hopen] using hpub⟩
      refine hi.linked _ (by rw [hd]; rfl) (fun hm => ?_) fun _ => ⟨by rw [hd]; exact hpub, ?_⟩
      · rw [hd] at hm
        cases hm
      · cases hc with
        | opened _ ha =>
          rw [ha, Channel.waiting, hempty, Link.heard, Link.heard, hy]
          simp [Outcome.message?]
        | closed hclosed =>
          rw [hopen] at hclosed
          cases hclosed

end Undisturbed

theorem Producer.Step.retirements {p p' : Producer} {l l' : Link Channel} (hs : p.Step l p' l')
    (hi : ∀ x ∈ (Tally.ofTrace l.trace).retirements, x = none) :
    ∀ x ∈ (Tally.ofTrace l'.trace).retirements, x = none := by
  cases hs with
  | @retire exit f rs hp hf =>
    have hpeace : exit.raised? (Feed.retirePanic? l.feed) = none := by cases exit <;> rfl
    simpa [hpeace, or_imp, forall_and] using hi
  | push hp hq | collectHandled hp hq => exact hi
  | _ => simpa using hi

namespace Supplied

/-- What holds at every moment of a bridge over a channel whose task is kept and whose handler
returns. -/
structure Running (g : UInt32) (accepted : List Message) (m : Supplied Channel) : Prop where
  generation : m.bridge.generation = g
  holds : m.bridge.Holds fun p c (l : Link Channel) =>
    Steady g p c l ∧ p.Told (.ofTrace l.trace) ∧ p.Tidy l
  conveys : m.bridge.link.Conveys accepted
  entering : ∀ p, m.bridge.producer = some p → p.place.isOut = false → m.bridge.link.feed.isOpen
  retirements : ∀ x ∈ (Tally.ofTrace m.bridge.link.trace).retirements, x = none
  outcomes : ∀ x, .panicked x ∉ (Tally.ofTrace m.bridge.link.trace).outcomes
  undisturbed : .stopRequested ∉ m.bridge.link.trace → Undisturbed accepted m.bridge
  orderly : m.bridge.Orderly

variable {h : Handler} {m m' : Supplied Channel} {accepted : List Message} {g : UInt32}

theorem change_step? {label : Label} (hl : label ≠ .bridge .produce)
    (hs : m.step? h label = some m') :
    m.bridge.link.feed.Change (m.accepted? label) m'.bridge.link.feed ∧
      m.bridge.link.Frame m'.bridge.link ∧ m'.bridge.producer = m.bridge.producer := by
  cases label with
  | bridge label =>
    obtain ⟨b, hb, rfl⟩ := Option.map_eq_some_iff.mp hs
    cases (Bridge.step?_eq_some_iff.mp hb).2 with
    | produce => exact (hl rfl).elim
    | consume hside => exact ⟨hside.change, hside.frame, rfl⟩
    | raise => exact ⟨.raise, (Link.aside_raise _).frame, rfl⟩
    | wake => exact ⟨.wake, (Link.aside_wake _).frame, rfl⟩
    | publish x =>
      exact ⟨.take (Channel.takes_publish _ x), (Link.aside_publish _ x).frame, rfl⟩
    | loseConsumer | letGo => exact ⟨.refl _, Link.frame_refl _, rfl⟩
  | supply x =>
    obtain ⟨d, hd, hes, rfl⟩ := step?_supply hs
    exact ⟨.take (Depot.takes_supply? hd), (aside_fed _ _ hes).frame, rfl⟩

theorem undisturbed_step? (hw : h.IsWhole) {label : Label} (hl : label ≠ .bridge .produce)
    (hs : m.step? h label = some m') (hq : .stopRequested ∉ m'.bridge.link.trace)
    (hi : Undisturbed accepted m.bridge) :
    Undisturbed (accepted ++ (m.accepted? label).toList) m'.bridge := by
  have hy := (change_step? hl hs).2.1.outcomes
  cases label with
  | bridge label =>
    obtain ⟨b, hb, rfl⟩ := Option.map_eq_some_iff.mp hs
    cases (Bridge.step?_eq_some_iff.mp hb).2 with
    | produce => exact (hl rfl).elim
    | consume hside =>
      obtain ⟨ht, hacts⟩ := hside.takes hw hi.acts hq
      exact hi.takes ht hy rfl hacts
    | raise => exact (hq (by simp [Link.raise])).elim
    | wake hpos =>
      rw [hi.wakes] at hpos
      cases hpos
    | publish x => exact hi.takes (Channel.takes_publish _ x) hy rfl hi.acts
    | loseConsumer hc =>
      obtain ⟨-, parts, rfl⟩ := Consumer.lose?_eq_some hc
      exact hi.takes (Channel.takes_refl _) hy rfl fun _ _ _ hplace => by cases hplace
    | letGo => exact hi.takes (Channel.takes_refl _) hy rfl hi.acts
  | supply x =>
    obtain ⟨d, hd, -, rfl⟩ := step?_supply hs
    exact hi.takes (Depot.takes_supply? hd) hy rfl hi.acts

theorem generation_step? {label : Label} (hs : m.step? h label = some m') :
    m'.bridge.generation = m.bridge.generation := by
  cases label with
  | bridge label =>
    obtain ⟨b, hb, rfl⟩ := Option.map_eq_some_iff.mp hs
    exact Bridge.generation_of_step hb
  | supply x =>
    obtain ⟨d, -, -, rfl⟩ := step?_supply hs
    rfl

theorem Running.holds_step? (hh : h.IsCalm) (hi : Running g accepted m) {label : Label}
    (hl : label ≠ .bridge .loseConsumer) (hs : m.step? h label = some m') :
    m'.bridge.Holds fun p c (l : Link Channel) =>
      Steady g p c l ∧ p.Told (.ofTrace l.trace) ∧ p.Tidy l := by
  refine Supplied.holds_step?
    ((Bridge.invariant_steady hh g).and (Bridge.invariant_told h)) ?_ ?_ hs hi.holds
  · intro p c l l' hs hi
    exact ⟨hi.1.aside hs, hi.2.1.frame hs.frame, hi.2.2.frame hs.frame⟩
  · rintro label rfl
    exact ⟨fun heq => hl (by rw [heq]), trivial⟩

theorem Running.produce (hh : h.IsCalm) (hi : Running g accepted m)
    (hs : m.step? h (.bridge .produce) = some m') : Running g accepted m' := by
  have hg := (generation_step? hs).trans hi.generation
  have hholds := hi.holds_step? hh (by simp) hs
  have ho := orderly_step? hi.orderly hs
  obtain ⟨b, hb, rfl⟩ := Option.map_eq_some_iff.mp hs
  obtain ⟨p, hp, -, ht, -⟩ := hi.holds
  cases (Bridge.step?_eq_some_iff.mp hb).2 with
  | @produce q p' l' hq hside =>
    cases hp.symm.trans hq
    refine ⟨hg, hholds, hi.conveys.produce hside, fun q hq' hout => ?_,
      hside.retirements hi.retirements, hside.reads.outcomes hi.outcomes, fun hq' => ?_, ho⟩
    · cases hq'
      exact hside.reads.isOpen (hi.entering p hp) hout
    · have hquiet : .stopRequested ∉ m.bridge.link.trace :=
        fun hm => hq' (hside.trace_grows.subset hm)
      exact (hi.undisturbed hquiet).produce hi.conveys ht (hi.entering p hp) hside

theorem Running.step? (hh : h.IsCalm) (hw : h.IsWhole) (hi : Running g accepted m)
    {label : Label} (hl : label ≠ .bridge .loseConsumer) (hs : m.step? h label = some m') :
    Running g (accepted ++ (m.accepted? label).toList) m' := by
  by_cases hp : label = .bridge .produce
  · subst hp
    simpa [accepted?] using hi.produce hh hs
  · obtain ⟨hc, hf, hproducer⟩ := change_step? hp hs
    refine ⟨(generation_step? hs).trans hi.generation, hi.holds_step? hh hl hs, ?_, ?_, ?_, ?_, ?_,
      orderly_step? hi.orderly hs⟩
    · exact hi.conveys.change hc (by rw [Link.heard, Link.heard, hf.outcomes]) hf.trace
    · rw [hproducer, hc.isOpen]
      exact hi.entering
    · rw [hf.retirements]
      exact hi.retirements
    · rw [hf.outcomes]
      exact hi.outcomes
    · intro hq
      exact undisturbed_step? hw hp hs hq
        (hi.undisturbed fun hm => hq (hf.trace.subset hm))

theorem Running.run? (hh : h.IsCalm) (hw : h.IsWhole) {labels : List Label}
    (hl : .bridge .loseConsumer ∉ labels) (hi : Running g accepted m)
    (hr : m.run? h labels = some m') :
    Running g (accepted ++ m.acceptedIn h labels) m' := by
  induction labels generalizing m accepted with
  | nil =>
    cases hr
    simpa [acceptedIn] using hi
  | cons label rest ih =>
    obtain ⟨next, hs, hr⟩ := Option.bind_eq_some_iff.mp hr
    have hne : label ≠ .bridge .loseConsumer := fun heq => hl (heq ▸ List.mem_cons_self)
    have hrest := ih (fun hm => hl (List.mem_cons_of_mem _ hm)) (hi.step? hh hw hne hs) hr
    rw [acceptedIn, hs, ← List.append_assoc]
    exact hrest

end Supplied

structure Channel.Ready (accepted : List Message) (c : Channel) : Prop where
  isOpen : c.isOpen = true
  isStopped : c.isStopped = false
  messages : c.messages = accepted
  wake : .wake ∉ accepted

theorem Channel.Ready.takes {accepted : List Message} {c d : Channel} {x? : Option Message}
    (hi : c.Ready accepted) (ht : c.Takes x? d) : d.Ready (accepted ++ x?.toList) where
  isOpen := ht.isOpen.trans hi.isOpen
  isStopped := ht.isStopped.trans hi.isStopped
  messages := by rw [ht.messages, hi.messages]
  wake := by
    rw [← hi.messages, ← ht.messages]
    intro hw
    have hbefore := ht.wake_mem hw
    rw [hi.messages] at hbefore
    exact hi.wake hbefore

theorem Depot.ready_supplyAll? {accepted : List Message} {d d' : Depot Channel} {xs : List Supply}
    (hi : d.feed.Ready accepted) (hs : d.supplyAll? xs = some d') :
    d'.feed.Ready (accepted ++ d.acceptedIn xs) := by
  induction xs generalizing d accepted with
  | nil =>
    cases hs
    simpa [acceptedIn] using hi
  | cons x rest ih =>
    obtain ⟨next, hn, hs⟩ := Option.bind_eq_some_iff.mp hs
    have hrest := ih (hi.takes (takes_supply? hn)) hs
    rw [acceptedIn, hn, ← List.append_assoc]
    exact hrest

def Supplied.begin {σ : Type} [Feed σ] (s : Source σ) (d : Depot σ) (config : ThreadRequest)
    (taken : UInt32) : Supplied σ where
  bridge := ({ s with feed := d.feed }.create config taken d.noted).bridge
  hands := d.hands

theorem Supplied.running_begin {before : List Supply} {d : Depot Channel}
    (hd : Depot.supplyAll? { feed := {} } before = some d) (config : ThreadRequest) (taken : UInt32)
    (hc : (({ feed := d.feed } : Source Channel).create config taken d.noted).failure? = none) :
    Running (nextGeneration taken) (Depot.acceptedIn { feed := {} } before)
      (begin { feed := {} } d config taken) := by
  have hready : d.feed.Ready (Depot.acceptedIn { feed := {} } before) :=
    Depot.ready_supplyAll? ⟨rfl, rfl, rfl, by simp⟩ hd
  have hquiet := Depot.isQuiet_supplyAll? hd (by simp)
  obtain ⟨p, hp, hf⟩ := Source.fresh_create { feed := d.feed } config taken hquiet hc
  have heq := Source.create_eq { feed := d.feed } config taken d.noted hc
  have hfeed : (begin { feed := {} } d config taken).bridge.link.feed = d.feed := by
    rw [begin, heq]
    rfl
  have hy : Tally.ofTrace (begin { feed := {} } d config taken).bridge.link.trace = {} := hf.tally
  have hheard : (begin { feed := {} } d config taken).bridge.link.heard = [] := by
    rw [Link.heard, hy]
    rfl
  refine ⟨?_, ⟨p, hp, hf.steady, hf.told, hf.informed.1⟩, ?_, ?_, ?_, ?_, ?_, ?_⟩
  · rw [begin, heq]
  · refine .opened (by rw [hfeed]; exact hready.isOpen) ?_
    have hall : ∀ m ∈ d.feed.messages, (m != .wake) = true := by
      intro m hm
      rw [hready.messages] at hm
      simpa using fun hw : m = .wake => hready.wake (hw ▸ hm)
    rw [hheard, hfeed, Channel.waiting, List.filter_eq_self.mpr hall, hready.messages]
    rfl
  · rw [hfeed]
    exact fun _ _ _ => hready.isOpen
  · simp [hy]
  · simp [hy]
  · refine fun _ => ⟨?_, ?_, ?_, ?_, ?_⟩
    · rw [hfeed]
      exact hready.isStopped
    · rw [hfeed, hready.messages]
      exact hready.wake
    · rw [begin, heq]
    · intro call isHeld acts hplace
      rw [begin, heq] at hplace
      cases hplace
    · simp [hy]
  · exact (Source.accounts_create { feed := d.feed } config taken d.noted).orderly

end Handoff
