import Handoff.Proofs.Steps
import Handoff.Proofs.Tally
import Handoff.Usage

/-! Invariants of a bridge: what holds when it is created and what every step keeps holds in all its
runs. -/
namespace Handoff

/-- A machine that takes one label after the other folds its steps over them. -/
theorem eq_foldlM {α ι : Type} {step? : α → ι → Option α} {run? : α → List ι → Option α}
    (hnil : ∀ a, run? a [] = some a)
    (hcons : ∀ a x xs, run? a (x :: xs) = (step? a x).bind fun next => run? next xs)
    (a : α) (xs : List ι) : run? a xs = xs.foldlM step? a := by
  induction xs generalizing a with
  | nil => exact hnil a
  | cons x rest ih =>
    rw [hcons, List.foldlM_cons]
    exact congrArg _ (funext ih)

/-- What every step of a machine keeps, every run of it keeps. -/
theorem foldlM_keeps {α ι : Type} {step? : α → ι → Option α} {P : α → Prop} {xs : List ι}
    (hstep : ∀ a b, ∀ x ∈ xs, P a → step? a x = some b → P b) {a b : α} (ha : P a)
    (hr : xs.foldlM step? a = some b) : P b := by
  induction xs generalizing a with
  | nil =>
    cases hr
    exact ha
  | cons x rest ih =>
    obtain ⟨next, hs, hr⟩ := Option.bind_eq_some_iff.mp hr
    have hnext := hstep a next x List.mem_cons_self ha hs
    exact ih (fun a b y hy => hstep a b y (List.mem_cons_of_mem x hy)) hnext hr

variable {σ : Type}

/-- What becomes of the link when the source is stopped or published to from outside. -/
def Link.outside [Feed σ] (l : Link σ) : Bridge.Label → Link σ
  | .raise => l.raise
  | .wake => l.wake
  | .publish x => l.publish x
  | .produce | .consume | .loseConsumer | .letGo => l

theorem Link.aside_outside [Feed σ] (l : Link σ) (label : Bridge.Label) :
    l.Aside (l.outside label) := by
  cases label with
  | raise => exact l.aside_raise
  | wake => exact l.aside_wake
  | publish x => exact l.aside_publish x
  | produce | consume | loseConsumer | letGo => exact l.aside_refl

namespace Bridge

def Label.isAside : Label → Bool
  | raise | wake | publish _ => true
  | produce | consume | loseConsumer | letGo => false

def Label.isOfSides : Label → Bool
  | produce | consume => true
  | raise | wake | publish _ | loseConsumer | letGo => false

/-- Something holds of both sides of a bridge and of what they share. -/
def Holds (I : Producer → Consumer → Link σ → Prop) (b : Bridge σ) : Prop :=
  ∃ p, b.producer = some p ∧ I p b.consumer b.link

theorem exit?_of_producer {b : Bridge σ} {p : Producer} (hp : b.producer = some p) :
    b.exit? = p.exit?.map fun exit => (exit, p.delivered) := by
  cases he : p.exit? <;> simp [exit?, hp, he]

theorem abort?_of_producer {b : Bridge σ} {p : Producer} (hp : b.producer = some p) :
    b.abort? = p.abort? := by
  simp [abort?, hp]

structure Fresh (generation : UInt32) (p : Producer) (c : Consumer) (l : Link σ) : Prop where
  producer : p = {}
  place : c.place = .fresh
  invocations : c.invocations = 0
  kept : c.kept = []
  context : c.context = .sent generation
  value : c.signal.value = none
  queue : l.queue = {}
  liveness : l.liveness = .running
  trace : ∀ e ∈ l.trace, e.isQuiet

theorem Fresh.tally {g : UInt32} {p : Producer} {c : Consumer} {l : Link σ}
    (hf : Fresh g p c l) : Tally.ofTrace l.trace = {} := Tally.ofTrace_of_isQuiet hf.trace

theorem Fresh.aside {g : UInt32} {p : Producer} {c : Consumer} {l l' : Link σ}
    (hf : Fresh g p c l) (hs : l.Aside l') : Fresh g p c l' where
  producer := hf.producer
  place := hf.place
  invocations := hf.invocations
  kept := hf.kept
  context := hf.context
  value := hf.value
  queue := hs.queue.trans hf.queue
  liveness := hs.liveness.trans hf.liveness
  trace := by
    obtain ⟨es, hes, ht⟩ := hs.trace
    intro e he
    rw [ht] at he
    exact (List.mem_append.mp he).elim (hf.trace e) (hes e)

variable [Feed σ]

/-- What is kept by each of the steps that are allowed. -/
structure Invariant (h : Handler) (allowed : Label → Prop)
    (I : Producer → Consumer → Link σ → Prop) : Prop where
  produce {p p' c l l'} (ha : allowed .produce) (hi : I p c l) (hs : Producer.Step p l p' l') :
    I p' c l'
  consume {p c c' l l'} (ha : allowed .consume) (hi : I p c l) (hp : p.abort? = none)
    (hs : Consumer.Step h (p.exit?.map fun exit => (exit, p.delivered)) c l c' l') : I p c' l'
  aside {label p c l} (ha : allowed label) (hl : label.isAside) (hi : I p c l) :
    I p c (l.outside label)
  lose {p c c' l} (ha : allowed .loseConsumer) (hi : I p c l) (hs : c.lose? = some c') : I p c' l
  letGo {p c l} (ha : allowed .letGo) (hi : I p c l) :
    I p { c with signal := c.signal.letGo } l

variable {h : Handler} {allowed : Label → Prop} {I : Producer → Consumer → Link σ → Prop}

theorem Invariant.and {allowed' : Label → Prop} {J : Producer → Consumer → Link σ → Prop}
    (hI : Invariant h allowed I) (hJ : Invariant h allowed' J) :
    Invariant h (fun label => allowed label ∧ allowed' label)
      (fun p c l => I p c l ∧ J p c l) where
  produce ha hi hs := ⟨hI.produce ha.1 hi.1 hs, hJ.produce ha.2 hi.2 hs⟩
  consume ha hi hp hs := ⟨hI.consume ha.1 hi.1 hp hs, hJ.consume ha.2 hi.2 hp hs⟩
  aside ha hl hi := ⟨hI.aside ha.1 hl hi.1, hJ.aside ha.2 hl hi.2⟩
  lose ha hi hs := ⟨hI.lose ha.1 hi.1 hs, hJ.lose ha.2 hi.2 hs⟩
  letGo ha hi := ⟨hI.letGo ha.1 hi.1, hJ.letGo ha.2 hi.2⟩

theorem Invariant.step (hI : Invariant h allowed I) {b b' : Bridge σ} {label : Label}
    (ha : allowed label) (hs : b.step? h label = some b') (hb : b.Holds I) : b'.Holds I := by
  obtain ⟨p, hp, hi⟩ := hb
  obtain ⟨hd, hstep⟩ := step?_eq_some_iff.mp hs
  cases hstep with
  | produce hp' hside =>
    cases hp.symm.trans hp'
    exact ⟨_, rfl, hI.produce ha hi hside⟩
  | consume hside =>
    rw [exit?_of_producer hp] at hside
    exact ⟨p, hp, hI.consume ha hi (abort?_of_producer hp ▸ hd) hside⟩
  | raise _ => exact ⟨p, hp, hI.aside ha rfl hi⟩
  | wake _ => exact ⟨p, hp, hI.aside ha rfl hi⟩
  | publish x => exact ⟨p, hp, hI.aside ha rfl hi⟩
  | loseConsumer hc => exact ⟨p, hp, hI.lose ha hi hc⟩
  | letGo => exact ⟨p, hp, hI.letGo ha hi⟩

theorem Invariant.run (hI : Invariant h allowed I) {labels : List Label}
    (ha : ∀ label ∈ labels, allowed label) {b b' : Bridge σ}
    (hr : b.run? h labels = some b') (hb : b.Holds I) : b'.Holds I := by
  induction labels generalizing b with
  | nil => cases hr; exact hb
  | cons label rest ih =>
    obtain ⟨m, hs, hr⟩ := Option.bind_eq_some_iff.mp hr
    exact ih (fun l hl => ha l (List.mem_cons_of_mem _ hl)) hr
      (hI.step (ha label List.mem_cons_self) hs hb)

theorem generation_of_step {b b' : Bridge σ} {label : Label} (hs : b.step? h label = some b') :
    b'.generation = b.generation := by
  obtain ⟨-, hs⟩ := step?_eq_some_iff.mp hs
  cases hs <;> rfl

theorem generation_of_run {labels : List Label} {b b' : Bridge σ}
    (hr : b.run? h labels = some b') : b'.generation = b.generation := by
  induction labels generalizing b with
  | nil => cases hr; rfl
  | cons label rest ih =>
    obtain ⟨m, hs, hr⟩ := Option.bind_eq_some_iff.mp hr
    exact (ih hr).trans (generation_of_step hs)

theorem invariant_fresh (h : Handler) (g : UInt32) :
    Invariant h (fun label => label.isAside ∨ label = .letGo) (Fresh (σ := σ) g) where
  produce ha := by simp [Label.isAside] at ha
  consume ha := by simp [Label.isAside] at ha
  aside _ _ hi := hi.aside (Link.aside_outside _ _)
  lose ha := by simp [Label.isAside] at ha
  letGo _ hi := { hi with }

theorem letGo_eq {b : Bridge σ} (hb : b.abort? = none) :
    (b.step? h .letGo).getD b =
      { b with consumer := { b.consumer with signal := b.consumer.signal.letGo } } := by
  rw [step?_eq_some_iff.mpr ⟨hb, .letGo⟩, Option.getD_some]

/-- A caller stops or publishes, as far as he can, or he notes what he sees. -/
theorem callerAct_cases (b : Bridge σ) (a : CallerAct) :
    (∃ labels : List Label, (∀ label ∈ labels, label.isAside) ∧
      b.run? h labels = some (b.callerAct h a)) ∨
      b.callerAct h a = b.note [.sawLiveness b.link.liveness] ∨
      b.callerAct h a = b.note [.sawGeneration b.generation] := by
  cases a with
  | stop =>
    simp only [callerAct, stop]
    cases hr : b.run? h [.raise, .wake] with
    | none => exact .inl ⟨[], by simp, rfl⟩
    | some next => exact .inl ⟨_, by simp [Label.isAside], hr⟩
  | noteLiveness => exact .inr (.inl rfl)
  | noteGeneration => exact .inr (.inr rfl)
  | publish x =>
    simp only [callerAct]
    cases hs : b.step? h (.publish x) with
    | none => exact .inl ⟨[], by simp, rfl⟩
    | some next => exact .inl ⟨[.publish x], by simp [Label.isAside], by simp [run?, hs]⟩

theorem holds_fresh_callerAct {b : Bridge σ} {g : UInt32} (hb : b.Holds (Fresh g))
    (a : CallerAct) : (b.callerAct h a).Holds (Fresh g) := by
  have hnote : ∀ e : Event, e.isQuiet → (b.note [e]).Holds (Fresh g) := by
    intro e he
    obtain ⟨p, hp, hf⟩ := hb
    exact ⟨p, hp, hf.aside (b.link.aside_note (by simpa using he))⟩
  rcases b.callerAct_cases (h := h) a with ⟨labels, hl, hr⟩ | heq | heq
  · exact (invariant_fresh h g).run (fun label hm => .inl (hl label hm)) hr hb
  · exact heq ▸ hnote _ rfl
  · exact heq ▸ hnote _ rfl

theorem holds_fresh_callerActs {b : Bridge σ} {g : UInt32} (hb : b.Holds (Fresh g))
    (acts : List CallerAct) : (b.callerActs h acts).Holds (Fresh g) := by
  induction acts generalizing b with
  | nil => exact hb
  | cons a rest ih => exact ih (holds_fresh_callerAct hb a)

theorem sides_of_run {b b' : Bridge σ} {labels : List Label} (hl : ∀ label ∈ labels, label.isAside)
    (hr : b.run? h labels = some b') : b'.producer = b.producer ∧ b'.consumer = b.consumer := by
  induction labels generalizing b with
  | nil =>
    cases hr
    exact ⟨rfl, rfl⟩
  | cons label rest ih =>
    obtain ⟨m, hs, hr⟩ := Option.bind_eq_some_iff.mp hr
    obtain ⟨hproducer, hconsumer⟩ := ih (fun l hm => hl l (List.mem_cons_of_mem _ hm)) hr
    rw [hproducer, hconsumer]
    have haside : label.isAside := hl label List.mem_cons_self
    cases (step?_eq_some_iff.mp hs).2 with
    | raise | wake | publish => exact ⟨rfl, rfl⟩
    | produce | consume | loseConsumer | letGo => cases haside

theorem callerAct_frame (b : Bridge σ) (a : CallerAct) :
    (b.callerAct h a).producer = b.producer ∧ (b.callerAct h a).consumer = b.consumer ∧
      (b.callerAct h a).generation = b.generation := by
  rcases b.callerAct_cases (h := h) a with ⟨labels, hl, hr⟩ | heq | heq
  · obtain ⟨hproducer, hconsumer⟩ := sides_of_run hl hr
    exact ⟨hproducer, hconsumer, generation_of_run hr⟩
  · rw [heq]
    exact ⟨rfl, rfl, rfl⟩
  · rw [heq]
    exact ⟨rfl, rfl, rfl⟩

theorem callerActs_frame (b : Bridge σ) (acts : List CallerAct) :
    (b.callerActs h acts).producer = b.producer ∧ (b.callerActs h acts).consumer = b.consumer ∧
      (b.callerActs h acts).generation = b.generation := by
  induction acts generalizing b with
  | nil => exact ⟨rfl, rfl, rfl⟩
  | cons a rest ih =>
    obtain ⟨hproducer, hconsumer, hgeneration⟩ := ih (b.callerAct h a)
    obtain ⟨hp, hc, hg⟩ := b.callerAct_frame (h := h) a
    exact ⟨hproducer.trans hp, hconsumer.trans hc, hgeneration.trans hg⟩

end Bridge

variable [Feed σ]

theorem Feed.publishAll_notes (f : σ) (xs : List Publishing) :
    ∀ e ∈ (Feed.publishAll f xs).2, e.isQuiet := by
  induction xs generalizing f with
  | nil => simp [publishAll]
  | cons x rest ih =>
    intro e he
    rcases List.mem_append.mp he with he | he
    · exact Event.isQuiet_of_isPublishing (publish_notes x f e he)
    · exact ih _ e he

/-- A creation that does not fail gives a bridge under the next generation. -/
theorem Source.create_eq (s : Source σ) (config : ThreadRequest) (taken : UInt32) (es : List Event)
    (hc : (s.create config taken es).failure? = none) :
    (s.create config taken es).bridge =
      { generation := nextGeneration taken
        threadName := config.threadName (nextGeneration taken)
        link := (Link.start s.feed (es ++ [.starting])).note [.created]
        producer := some {}
        consumer := { context := .sent (nextGeneration taken) } } := by
  unfold create at hc ⊢
  cases hf : s.fault? with
  | some fault => cases fault <;> simp [hf, Creation.remains] at hc
  | none =>
    simp only [hf, Creation.spawn] at hc ⊢
    cases hs : config.spawnFault? (nextGeneration taken) with
    | none => rfl
    | some fault =>
      cases fault with
      | badName => simp [hs, Creation.remains] at hc
      | refused =>
        simp only [hs, Creation.refuse] at hc
        split at hc <;> simp [Creation.remains] at hc

theorem Source.fresh_create (s : Source σ) (config : ThreadRequest) (taken : UInt32)
    {es : List Event} (hes : ∀ e ∈ es, e.isQuiet)
    (hc : (s.create config taken es).failure? = none) :
    (s.create config taken es).bridge.Holds (Bridge.Fresh (nextGeneration taken)) := by
  rw [s.create_eq config taken es hc]
  refine ⟨{}, rfl, rfl, rfl, rfl, rfl, rfl, rfl, rfl, rfl, ?_⟩
  simpa [or_imp, forall_and] using hes

namespace Usage

/-- The bridge that a creation gives, before its caller may let go of it. -/
theorem created (u : Usage σ) (taken : UInt32) (hc : (u.begin taken).failure? = none) :
    ∃ b : Bridge σ, b.Holds (Bridge.Fresh (nextGeneration taken)) ∧
      b.consumer = { context := .sent (nextGeneration taken) } ∧
      b.generation = nextGeneration taken ∧ (u.begin taken).bridge =
        if u.await = .letGo then
          { b with consumer := { b.consumer with signal := b.consumer.signal.letGo } }
        else b := by
  rcases hpub : Feed.publishAll u.source.feed (u.before.filterMap CallerAct.early?) with ⟨f, es⟩
  have hes : ∀ e ∈ es, e.isQuiet := by
    simpa [hpub] using Feed.publishAll_notes u.source.feed (u.before.filterMap CallerAct.early?)
  simp only [begin, hpub] at hc ⊢
  cases hf : (({ u.source with feed := f } : Source σ).create u.config taken es).failure? with
  | some failure => simp [hf] at hc
  | none =>
    have hb := Bridge.holds_fresh_callerActs (h := u.handler)
      (Source.fresh_create _ u.config taken hes hf) u.afterCreate
    refine ⟨_, hb, ?_, ?_, ?_⟩
    · rw [(Bridge.callerActs_frame _ _).2.1, Source.create_eq _ _ _ _ hf]
    · rw [(Bridge.callerActs_frame _ _).2.2, Source.create_eq _ _ _ _ hf]
    · obtain ⟨p, hp, hfresh⟩ := hb
      have halive := Bridge.abort?_of_producer hp
      rw [hfresh.producer] at halive
      rw [← Bridge.letGo_eq (h := u.handler) halive]

theorem fresh_begin (u : Usage σ) (taken : UInt32) (hc : (u.begin taken).failure? = none) :
    (u.begin taken).bridge.Holds (Bridge.Fresh (nextGeneration taken)) := by
  obtain ⟨b, ⟨p, hp, hf⟩, -, -, hbridge⟩ := u.created taken hc
  rw [hbridge]
  split
  · exact ⟨p, hp, { hf with }⟩
  · exact ⟨p, hp, hf⟩

theorem generation_begin (u : Usage σ) (taken : UInt32) (hc : (u.begin taken).failure? = none) :
    (u.begin taken).bridge.generation = nextGeneration taken := by
  obtain ⟨b, -, -, hg, hbridge⟩ := u.created taken hc
  rw [hbridge, ← hg]
  split <;> rfl

end Usage

end Handoff
