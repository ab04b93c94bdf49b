import Handoff.Proofs.Teardown

/-! A caller is told that the consumer is gone exactly if the context of his bridge was destroyed
unused, and never that all went well after a record was lost. -/
namespace Handoff

namespace Consumer

/-- The next thing the task does is to destroy its context, which nobody has used. -/
def IsDroppingContext (c : Consumer) : Prop :=
  ∃ rest g, c.place = .leaving (.context :: rest) ∧ c.context = .sent g

@[simp] def Place.isBusy : Place → Bool
  | fresh | receiving | handling .. | returning _ | awaiting => true
  | unwinding _ | joining _ | resolving _ | leaving _ | gone => false

structure Holding (c : Consumer) : Prop where
  context : ∃ g, c.context = .sent g
  value : c.signal.value = none
  panic : c.panic? = none
  place : c.place.isBusy

/-- The task was lost or its handler has panicked, and its context is not destroyed yet. -/
structure Falling (c : Consumer) : Prop where
  context : ∃ g, c.context = .sent g
  value : c.signal.value = none
  place : (∃ ticket, c.place = .unwinding ticket) ∨
    ∃ parts, c.place = .leaving parts ∧ .context ∈ parts ∧ parts.Nodup

def Place.IsPastContext (place : Place) : Prop :=
  place = .gone ∨ ∃ parts, place = .leaving parts ∧ .context ∉ parts

/-- The context was destroyed unused, which the caller was told if he still waits. -/
structure Abandoned (c : Consumer) : Prop where
  context : c.context = .used
  place : c.place.IsPastContext
  value : ∀ v, c.signal.value = some v → v = .failed .consumerDropped
  told : c.signal.isHeld → c.signal.value = some (.failed .consumerDropped)

structure Finalizing (c : Consumer) : Prop where
  context : c.context = .used
  panic : c.panic? = none
  place : (∃ g, c.place = .joining g) ∨
    (∃ v, c.place = .resolving v ∧ v ≠ .failed .consumerDropped) ∨ c.place.IsPastContext
  value : c.signal.value ≠ some (.failed .consumerDropped)

theorem not_isDroppingContext_of_used {c : Consumer} (hc : c.context = .used) :
    ¬ c.IsDroppingContext := by
  rintro ⟨rest, g, -, hg⟩
  simp [hc] at hg

theorem lose?_eq_none_of_not_isBusy {c : Consumer} (hc : c.place.isBusy = false) :
    c.lose? = none := by
  unfold lose?
  split <;> simp_all

theorem Place.IsPastContext.not_isBusy {place : Place} (hp : place.IsPastContext) :
    place.isBusy = false := by
  obtain rfl | ⟨parts, rfl, -⟩ := hp <;> rfl

variable {σ : Type} [Feed σ] {h : Handler} {exit? : Option (Exit × Nat)} {c c' : Consumer}
  {l l' : Link σ}

theorem Holding.step (hi : c.Holding) (hs : c.Step h exit? l c' l') :
    c'.Holding ∨ (c'.Falling ∧ c'.panic?.isSome) ∨ c'.Finalizing := by
  obtain ⟨⟨g, hg⟩, hv, hn, hplace⟩ := hi
  cases hs with
  | begin hp | take hp hq | drained hp hq hs | finish hp | answer hp =>
    exact .inl ⟨⟨g, hg⟩, hv, hn, rfl⟩
  | @act call isHeld a rest hp =>
    obtain ⟨-, hcontext, hsignal⟩ := c.act_frame l call isHeld rest a
    cases a with
    | panic x => exact .inr (.inl ⟨⟨⟨g, hg⟩, hv, .inl ⟨_, rfl⟩⟩, rfl⟩)
    | stop | finishStop | keep | setAside | releaseKept | publish x =>
      exact .inl ⟨⟨g, hg⟩, hv, hn, rfl⟩
  | join hp hc =>
    exact .inr (.inr ⟨rfl, hn, .inl ⟨_, rfl⟩, by simp [hv]⟩)
  | giveUp hp hc => simp [hg] at hc
  | unwind hp | judge hp he | resolve hp | drop hp | leave hp => simp [hp] at hplace

theorem Falling.step (hi : c.Falling) (hs : c.Step h exit? l c' l') :
    c'.panic? = c.panic? ∧
      (c'.Falling ∧ ¬ c.IsDroppingContext ∨ c'.Abandoned ∧ c.IsDroppingContext) := by
  obtain ⟨⟨g, hg⟩, hv, ⟨ticket, hp⟩ | ⟨parts, hp, hmem, hnodup⟩⟩ := hi
  · cases hs with
    | unwind hp' =>
      refine ⟨rfl, .inl ⟨⟨⟨g, hg⟩, hv, .inr ⟨_, rfl, by simp, by decide⟩⟩, ?_⟩⟩
      rintro ⟨rest, _, hrest, -⟩
      simp [hp] at hrest
    | _ => simp_all
  · cases hs with
    | @drop part rest hp' =>
      cases hp.symm.trans hp'
      obtain ⟨hpart, hrest⟩ := List.nodup_cons.mp hnodup
      cases part with
      | context =>
        refine ⟨by simp [dropPart, dropContext, hg], .inr ⟨?_, ⟨rest, g, hp, hg⟩⟩⟩
        refine ⟨by simp [dropPart, dropContext, hg], .inr ⟨rest, rfl, hpart⟩, ?_, ?_⟩
        · intro v hv'
          simp only [dropPart, dropContext, hg, Signal.abandon] at hv'
          rcases Signal.eq_or_eq_of_send hv' with hv' | rfl
          · simp [hv] at hv'
          · rfl
        · intro hheld
          simp only [dropPart, dropContext, hg, Signal.abandon, Signal.isHeld_send] at hheld ⊢
          simp [Signal.send, hv, hheld]
      | handler | receiver =>
        have hmem' : Part.context ∈ rest := by simpa using hmem
        refine ⟨rfl, .inl ⟨⟨⟨g, hg⟩, hv, .inr ⟨rest, rfl, hmem', hrest⟩⟩, ?_⟩⟩
        rintro ⟨_, _, hplace, -⟩
        simp [hp] at hplace
    | leave hp' => simp [hp] at hp'; simp [hp'] at hmem
    | _ => simp_all

theorem Place.IsPastContext.step (hp : c.place.IsPastContext) (hc : c.context = .used)
    (hs : c.Step h exit? l c' l') :
    c'.place.IsPastContext ∧ c'.context = .used ∧ c'.signal = c.signal ∧ c'.panic? = c.panic? := by
  obtain hp | ⟨parts, hp, hmem⟩ := hp
  · cases hs <;> simp_all
  · cases hs with
    | @drop part rest hp' =>
      cases hp.symm.trans hp'
      have hrest : Part.context ∉ rest := fun hm => hmem (List.mem_cons_of_mem _ hm)
      cases part with
      | context => simp at hmem
      | handler | receiver => exact ⟨.inr ⟨rest, rfl, hrest⟩, hc, rfl, rfl⟩
    | leave hp' => exact ⟨.inl rfl, hc, rfl, rfl⟩
    | _ => simp_all

theorem Abandoned.step (hi : c.Abandoned) (hs : c.Step h exit? l c' l') : c'.Abandoned := by
  obtain ⟨hplace, hcontext, hsignal, -⟩ := hi.place.step hi.context hs
  exact ⟨hcontext, hplace, hsignal ▸ hi.value, hsignal ▸ hi.told⟩

theorem Finalizing.step (hi : c.Finalizing) (hs : c.Step h exit? l c' l') : c'.Finalizing := by
  obtain ⟨hc, hn, ⟨g, hp⟩ | ⟨v, hp, hne⟩ | hp, hv⟩ := hi
  · cases hs with
    | @judge _ exit n hp' he =>
      exact ⟨hc, hn, .inr (.inl ⟨_, rfl, by cases exit <;> simp [Completion.ofExit]⟩), hv⟩
    | _ => simp_all
  · cases hs with
    | @resolve w hp' =>
      cases hp.symm.trans hp'
      refine ⟨hc, hn, .inr (.inr (.inr ⟨_, rfl, by simp⟩)), fun hsent => ?_⟩
      rcases Signal.eq_or_eq_of_send hsent with hsent | hsent
      · exact hv hsent
      · exact hne hsent.symm
    | _ => simp_all
  · obtain ⟨hplace, hcontext, hsignal, hpanic⟩ := hp.step hc hs
    exact ⟨hcontext, hpanic.trans hn, .inr (.inr hplace), hsignal ▸ hv⟩

theorem Finalizing.not_isBusy {c : Consumer} (hi : c.Finalizing) : c.place.isBusy = false := by
  obtain ⟨g, hp⟩ | ⟨v, hp, -⟩ | hp := hi.place
  · simp [hp]
  · simp [hp]
  · exact hp.not_isBusy

theorem Holding.letGo {c : Consumer} (hi : c.Holding) :
    ({ c with signal := c.signal.letGo } : Consumer).Holding :=
  ⟨hi.context, hi.value, hi.panic, hi.place⟩

theorem Falling.letGo {c : Consumer} (hi : c.Falling) :
    ({ c with signal := c.signal.letGo } : Consumer).Falling :=
  ⟨hi.context, hi.value, hi.place⟩

theorem Abandoned.letGo {c : Consumer} (hi : c.Abandoned) :
    ({ c with signal := c.signal.letGo } : Consumer).Abandoned :=
  ⟨hi.context, hi.place, hi.value, fun hheld => by simp [Signal.letGo] at hheld⟩

theorem Finalizing.letGo {c : Consumer} (hi : c.Finalizing) :
    ({ c with signal := c.signal.letGo } : Consumer).Finalizing :=
  ⟨hi.context, hi.panic, hi.place, hi.value⟩

theorem Holding.lose {c c' : Consumer} (hi : c.Holding) (hl : c.lose? = some c') : c'.Falling := by
  obtain ⟨g, hg⟩ := hi.context
  have hv := hi.value
  unfold lose? at hl
  split at hl
  next => cases hl; exact ⟨⟨g, hg⟩, hv, .inr ⟨_, rfl, by simp, by decide⟩⟩
  next => cases hl; exact ⟨⟨g, hg⟩, hv, .inr ⟨_, rfl, by simp, by decide⟩⟩
  next => cases hl; exact ⟨⟨g, hg⟩, hv, .inr ⟨_, rfl, by simp, by decide⟩⟩
  next => cases hl

theorem Holding.not_isDroppingContext {c : Consumer} (hi : c.Holding) : ¬ c.IsDroppingContext := by
  rintro ⟨rest, g, hp, -⟩
  have hplace := hi.place
  simp [hp] at hplace

theorem Step.panic? (hs : c.Step h exit? l c' l') (hp : c.panic?.isSome) : c'.panic?.isSome := by
  cases hs with
  | @act _ _ a _ hp' => cases a <;> first | exact hp | rfl
  | @drop part _ hp' => rwa [← (c.dropPart_frame l part).2] at hp
  | _ => exact hp

theorem Falling.not_isBusy {c : Consumer} (hi : c.Falling) : c.place.isBusy = false := by
  obtain ⟨ticket, hp⟩ | ⟨parts, hp, -⟩ := hi.place <;> simp [hp]

end Consumer

theorem Usage.holding_begin {σ : Type} [Feed σ] (u : Usage σ) (taken : UInt32)
    (hc : (u.begin taken).failure? = none) : (u.begin taken).bridge.consumer.Holding := by
  obtain ⟨b, -, hconsumer, -, hbridge⟩ := u.created taken hc
  have hb : b.consumer.Holding := by
    rw [hconsumer]
    exact ⟨⟨_, rfl⟩, rfl, rfl, rfl⟩
  rw [hbridge]
  split
  · exact hb.letGo
  · exact hb

namespace Bridge

variable {σ : Type} [Feed σ] {h : Handler} {b b' : Bridge σ} {labels : List Label}

def DestroysContext (h : Handler) : Bridge σ → List Label → Prop
  | _, [] => False
  | b, label :: rest =>
    (label = .consume ∧ b.consumer.IsDroppingContext) ∨
      ∃ next, b.step? h label = some next ∧ DestroysContext h next rest

/-- What a step makes of the consumer: the task steps, is lost, or has no part in it. -/
theorem consumer_cases {label : Label} (hs : Step h b label b') :
    (label = .consume ∧ b.consumer.Step h b.exit? b.link b'.consumer b'.link) ∨
      (label = .loseConsumer ∧ b.consumer.lose? = some b'.consumer) ∨
      (label ≠ .consume ∧ label ≠ .loseConsumer ∧ (b'.consumer = b.consumer ∨
        b'.consumer = { b.consumer with signal := b.consumer.signal.letGo })) := by
  cases hs with
  | consume hs => exact .inl ⟨rfl, hs⟩
  | loseConsumer hl => exact .inr (.inl ⟨rfl, hl⟩)
  | letGo => exact .inr (.inr ⟨by simp, by simp, .inr rfl⟩)
  | produce | raise | wake | publish => exact .inr (.inr ⟨by simp, by simp, .inl rfl⟩)

theorem not_destroysContext_cons {label : Label} {next : Bridge σ} {rest : List Label}
    (hs : b.step? h label = some next) (hd : label = .consume → ¬ b.consumer.IsDroppingContext)
    (hrest : ¬ next.DestroysContext h rest) : ¬ b.DestroysContext h (label :: rest) := by
  rintro (⟨hl, hc⟩ | ⟨next', hs', hrest'⟩)
  · exact hd hl hc
  · cases hs.symm.trans hs'
    exact hrest hrest'

/-- A state of the consumer in which his context is used and his task cannot be lost. -/
structure Past (h : Handler) (P : Consumer → Prop) : Prop where
  used {c} (hi : P c) : c.context = .used
  busy {c} (hi : P c) : c.place.isBusy = false
  letGo {c} (hi : P c) : P { c with signal := c.signal.letGo }
  step {exit? : Option (Exit × Nat)} {c c'} {l l' : Link σ} (hi : P c)
    (hs : c.Step h exit? l c' l') : P c'

theorem Past.run {P : Consumer → Prop} (hP : Past (σ := σ) h P) (hi : P b.consumer)
    (hr : b.run? h labels = some b') :
    P b'.consumer ∧ .loseConsumer ∉ labels ∧ ¬ b.DestroysContext h labels := by
  induction labels generalizing b with
  | nil =>
    cases hr
    exact ⟨hi, by simp, id⟩
  | cons label rest ih =>
    obtain ⟨m, hs, hr⟩ := Option.bind_eq_some_iff.mp hr
    have hm : P m.consumer ∧ label ≠ .loseConsumer := by
      rcases consumer_cases (step?_eq_some_iff.mp hs).2 with
        ⟨rfl, hc⟩ | ⟨rfl, hl⟩ | ⟨-, hl, hc | hc⟩
      · exact ⟨hP.step hi hc, by simp⟩
      · simp [Consumer.lose?_eq_none_of_not_isBusy (hP.busy hi)] at hl
      · exact ⟨hc ▸ hi, hl⟩
      · exact ⟨hc ▸ hP.letGo hi, hl⟩
    obtain ⟨hb', hlose, hd⟩ := ih hm.1 hr
    refine ⟨hb', by simp [hm.2.symm, hlose], not_destroysContext_cons hs (fun _ => ?_) hd⟩
    exact Consumer.not_isDroppingContext_of_used (hP.used hi)

theorem past_abandoned (h : Handler) : Past (σ := σ) h Consumer.Abandoned where
  used hi := hi.context
  busy hi := hi.place.not_isBusy
  letGo hi := hi.letGo
  step hi hs := hi.step hs

theorem past_finalizing (h : Handler) : Past (σ := σ) h Consumer.Finalizing where
  used hi := hi.context
  busy hi := hi.not_isBusy
  letGo hi := hi.letGo
  step hi hs := hi.step hs

theorem panic?_of_step {label : Label} (hs : b.step? h label = some b')
    (hp : b.consumer.panic?.isSome) : b'.consumer.panic?.isSome := by
  rcases consumer_cases (step?_eq_some_iff.mp hs).2 with ⟨-, hc⟩ | ⟨-, hl⟩ | ⟨-, -, hc | hc⟩
  · exact hc.panic? hp
  · obtain ⟨-, parts, hc⟩ := Consumer.lose?_eq_some hl
    rwa [hc]
  · rwa [hc]
  · rwa [hc]

theorem panic?_of_run (hr : b.run? h labels = some b') (hp : b.consumer.panic?.isSome) :
    b'.consumer.panic?.isSome := by
  induction labels generalizing b with
  | nil =>
    cases hr
    exact hp
  | cons label rest ih =>
    obtain ⟨m, hs, hr⟩ := Option.bind_eq_some_iff.mp hr
    exact ih hr (panic?_of_step hs hp)

theorem run_of_falling (hi : b.consumer.Falling) (hr : b.run? h labels = some b') :
    b'.consumer.Falling ∧ ¬ b.DestroysContext h labels ∨
      b'.consumer.Abandoned ∧ b.DestroysContext h labels := by
  induction labels generalizing b with
  | nil =>
    cases hr
    exact .inl ⟨hi, id⟩
  | cons label rest ih =>
    obtain ⟨m, hs, hr'⟩ := Option.bind_eq_some_iff.mp hr
    have hgo (hm : m.consumer.Falling) (hd : label = .consume → ¬ b.consumer.IsDroppingContext) :
        b'.consumer.Falling ∧ ¬ b.DestroysContext h (label :: rest) ∨
          b'.consumer.Abandoned ∧ b.DestroysContext h (label :: rest) := by
      rcases ih hm hr' with ⟨hb', hrest⟩ | ⟨hb', hrest⟩
      · exact .inl ⟨hb', not_destroysContext_cons hs hd hrest⟩
      · exact .inr ⟨hb', .inr ⟨m, hs, hrest⟩⟩
    rcases consumer_cases (step?_eq_some_iff.mp hs).2 with ⟨rfl, hc⟩ | ⟨rfl, hl⟩ | ⟨hl, -, hc | hc⟩
    · rcases (hi.step hc).2 with ⟨hm, hd⟩ | ⟨hm, hd⟩
      · exact hgo hm fun _ => hd
      · exact .inr ⟨((past_abandoned h).run hm hr').1, .inl ⟨rfl, hd⟩⟩
    · simp [Consumer.lose?_eq_none_of_not_isBusy hi.not_isBusy] at hl
    · exact hgo (hc ▸ hi) fun he => (hl he).elim
    · exact hgo (hc ▸ hi.letGo) fun he => (hl he).elim

/-- What has become of the context in a run from a task that held it. -/
inductive Course (h : Handler) (b : Bridge σ) (labels : List Label) (b' : Bridge σ) : Prop where
  | holding (hc : b'.consumer.Holding) (hl : .loseConsumer ∉ labels)
      (hd : ¬ b.DestroysContext h labels)
  | falling (hc : b'.consumer.Falling) (hl : .loseConsumer ∈ labels ∨ b'.consumer.panic?.isSome)
      (hd : ¬ b.DestroysContext h labels)
  | abandoned (hc : b'.consumer.Abandoned)
      (hl : .loseConsumer ∈ labels ∨ b'.consumer.panic?.isSome) (hd : b.DestroysContext h labels)
  | finalizing (hc : b'.consumer.Finalizing) (hl : .loseConsumer ∉ labels)
      (hd : ¬ b.DestroysContext h labels)

theorem course_of_falling {label : Label} {m : Bridge σ} (hs : b.step? h label = some m)
    (hd : ¬ b.consumer.IsDroppingContext) (hm : m.consumer.Falling)
    (hl : label = .loseConsumer ∨ m.consumer.panic?.isSome) (hr : m.run? h labels = some b') :
    Course h b (label :: labels) b' := by
  have hcause : .loseConsumer ∈ label :: labels ∨ b'.consumer.panic?.isSome := by
    rcases hl with rfl | hp
    · exact .inl List.mem_cons_self
    · exact .inr (panic?_of_run hr hp)
  rcases run_of_falling hm hr with ⟨hb', hrest⟩ | ⟨hb', hrest⟩
  · exact .falling hb' hcause (not_destroysContext_cons hs (fun _ => hd) hrest)
  · exact .abandoned hb' hcause (.inr ⟨m, hs, hrest⟩)

theorem course_of_holding (hi : b.consumer.Holding) (hr : b.run? h labels = some b') :
    Course h b labels b' := by
  induction labels generalizing b with
  | nil =>
    cases hr
    exact .holding hi (by simp) id
  | cons label rest ih =>
    obtain ⟨m, hs, hr'⟩ := Option.bind_eq_some_iff.mp hr
    have hd := hi.not_isDroppingContext
    have hgo (hm : m.consumer.Holding) (hl : label ≠ .loseConsumer) :
        Course h b (label :: rest) b' := by
      cases ih hm hr' with
      | holding hc hrest hn =>
        exact .holding hc (by simp [hl.symm, hrest]) (not_destroysContext_cons hs (fun _ => hd) hn)
      | falling hc hrest hn =>
        exact .falling hc (hrest.imp_left (List.mem_cons_of_mem _))
          (not_destroysContext_cons hs (fun _ => hd) hn)
      | abandoned hc hrest hn =>
        exact .abandoned hc (hrest.imp_left (List.mem_cons_of_mem _)) (.inr ⟨m, hs, hn⟩)
      | finalizing hc hrest hn =>
        exact .finalizing hc (by simp [hl.symm, hrest])
          (not_destroysContext_cons hs (fun _ => hd) hn)
    rcases consumer_cases (step?_eq_some_iff.mp hs).2 with ⟨rfl, hc⟩ | ⟨rfl, hl⟩ | ⟨-, hl, hc | hc⟩
    · rcases hi.step hc with hm | ⟨hm, hp⟩ | hm
      · exact hgo hm (by simp)
      · exact course_of_falling hs hd hm (.inr hp) hr'
      · obtain ⟨hb', hlose, hn⟩ := (past_finalizing h).run hm hr'
        exact .finalizing hb' (by simp [hlose]) (not_destroysContext_cons hs (fun _ => hd) hn)
    · exact course_of_falling hs hd (hi.lose hl) (.inl rfl) hr'
    · exact hgo (hc ▸ hi) hl
    · exact hgo (hc ▸ hi.letGo) hl

/-- After a failed push the process dies, but not at once: until then all but its producer go on. -/
inductive Lingers (h : Handler) (b : Bridge σ) : Bridge σ → Prop where
  | refl : Lingers h b b
  | step {m b' : Bridge σ} {label : Label} (hm : Lingers h b m) (hs : Step h m label b') :
    Lingers h b b'

structure Doomed (b : Bridge σ) : Prop where
  aborted : ∃ p e, b.producer = some p ∧ p.place = .aborted e
  resolving : ∀ v, b.consumer.place ≠ .resolving v
  value : ∀ v, b.completion? = some v → v = .failed .consumerDropped

theorem Doomed.step {label : Label} (hi : b.Doomed) (hs : Step h b label b') : b'.Doomed := by
  obtain ⟨⟨p, e, hp, hplace⟩, hr, hv⟩ := hi
  cases hs with
  | produce hp' hside =>
    cases hp.symm.trans hp'
    cases hside <;> simp_all
  | consume hside =>
    have he : b.exit? = none := by simp [exit?, hp, Producer.exit?, hplace]
    refine ⟨⟨p, e, hp, hplace⟩, fun v hv' => ?_, fun v hv' => ?_⟩
    · obtain ⟨g, exit, n, -, he', -⟩ := hside.resolving hv'
      simp [he] at he'
    · rcases hside.told hv' with hv' | rfl | ⟨hr', -⟩
      · exact hv v hv'
      · rfl
      · exact (hr v hr').elim
  | raise | wake | publish => exact ⟨⟨p, e, hp, hplace⟩, hr, hv⟩
  | loseConsumer hl =>
    obtain ⟨-, parts, rfl⟩ := Consumer.lose?_eq_some hl
    exact ⟨⟨p, e, hp, hplace⟩, by simp, hv⟩
  | letGo => exact ⟨⟨p, e, hp, hplace⟩, hr, hv⟩

theorem Doomed.lingers (hi : b.Doomed) (hl : b.Lingers h b') : b'.Doomed := by
  induction hl with
  | refl => exact hi
  | step _ hs ih => exact ih.step hs

omit [Feed σ] in
theorem doomed_of_informed {p : Producer} {g : UInt32} (hp : b.producer = some p)
    (hi : Informed g p b.consumer b.link) (ha : b.abort?.isSome) : b.Doomed := by
  have hnone : ∀ v, ¬ Judged g p b.link v := by
    rintro v ⟨⟨exit, hplace, -⟩, -⟩
    simp [abort?, hp, Producer.abort?, hplace] at ha
  obtain ⟨e, hplace⟩ : ∃ e, p.place = .aborted e := by
    rw [abort?_of_producer hp] at ha
    unfold Producer.abort? at ha
    split at ha
    next e hplace => exact ⟨e, hplace⟩
    next => cases ha
  refine ⟨⟨p, e, hp, hplace⟩, fun v hv => hnone v (hi.resolving v hv), fun v hv => ?_⟩
  exact (hi.told v hv).resolve_right fun hj => hnone v hj.1

/-- What the caller of a bridge learns of the loss of its consumer, after a run from its
creation. -/
structure TellsLoss (h : Handler) (b : Bridge σ) (labels : List Label) (b' : Bridge σ) : Prop where
  /-- That the consumer is gone is told only if the context was destroyed unused, -/
  dropped : b'.completion? = some (.failed .consumerDropped) → b.DestroysContext h labels
  /-- and then it is told to everyone who still waits. -/
  told : b.DestroysContext h labels → b'.consumer.signal.isHeld →
    b'.completion? = some (.failed .consumerDropped)
  cause : b.DestroysContext h labels → .loseConsumer ∈ labels ∨ b'.consumer.panic?.isSome
  effect : .loseConsumer ∈ labels ∨ b'.consumer.panic?.isSome → b'.consumer.place = .gone →
    b.DestroysContext h labels
  /-- After the context was destroyed nothing else is ever told. -/
  exclusive : b.DestroysContext h labels → ∀ more b'', b'.run? h more = some b'' →
    ∀ v, b''.completion? = some v → v = .failed .consumerDropped
  final : ∀ v, b'.completion? = some v → v ≠ .failed .consumerDropped →
    ¬ b.DestroysContext h labels ∧
      ∀ more b'', b'.run? h more = some b'' → ¬ b'.DestroysContext h more
  /-- A failed push excludes every verdict of the finalizer. -/
  push : b'.abort?.isSome → ∀ b'', b'.Lingers h b'' →
    ∀ v, b''.completion? = some v → v = .failed .consumerDropped

theorem tellsLoss_of_course (hc : Course h b labels b') (hd : b'.abort?.isSome → b'.Doomed) :
    TellsLoss h b labels b' := by
  have hpush (ha : b'.abort?.isSome) (b'' : Bridge σ) (hl : b'.Lingers h b'') (v : Completion)
      (hv : b''.completion? = some v) : v = .failed .consumerDropped :=
    ((hd ha).lingers hl).value v hv
  cases hc with
  | holding hc hl hn =>
    have hnone : b'.completion? = none := hc.value
    refine ⟨by simp [hnone], fun hd => (hn hd).elim, fun hd => (hn hd).elim, fun hcause hgone => ?_,
      fun hd => (hn hd).elim, by simp [hnone], hpush⟩
    have hplace := hc.place
    simp [hgone] at hplace
  | falling hc hl hn =>
    have hnone : b'.completion? = none := hc.value
    refine ⟨by simp [hnone], fun hd => (hn hd).elim, fun hd => (hn hd).elim, fun hcause hgone => ?_,
      fun hd => (hn hd).elim, by simp [hnone], hpush⟩
    obtain ⟨_, hplace⟩ | ⟨_, hplace, -⟩ := hc.place <;> simp [hgone] at hplace
  | abandoned hc hl hd =>
    refine ⟨fun _ => hd, fun _ => hc.told, fun _ => hl, fun _ _ => hd, fun _ more b'' hr => ?_,
      fun v hv hne => (hne (hc.value v hv)).elim, hpush⟩
    exact ((past_abandoned h).run hc hr).1.value
  | finalizing hc hl hn =>
    refine ⟨fun hv => (hc.value hv).elim, fun hd => (hn hd).elim, fun hd => (hn hd).elim,
      fun hcause => ?_, fun hd => (hn hd).elim, fun _ _ _ => ⟨hn, fun more b'' hr => ?_⟩, hpush⟩
    · simp [hl, hc.panic] at hcause
    · exact ((past_finalizing h).run hc hr).2.2

/-- The caller is told that the consumer is gone exactly if the context was destroyed without being
finalized, which a lost task and a panicking handler lead to, and then he is told nothing else. -/
theorem tellsLoss_of_run (u : Usage σ) (taken : UInt32) (hc : (u.begin taken).failure? = none)
    {labels : List Label} {b : Bridge σ}
    (hr : (u.begin taken).bridge.run? u.handler labels = some b) :
    TellsLoss u.handler (u.begin taken).bridge labels b := by
  obtain ⟨p₀, hp₀, hf⟩ := u.fresh_begin taken hc
  refine tellsLoss_of_course (course_of_holding (u.holding_begin taken hc) hr) fun ha => ?_
  obtain ⟨p, hp, -, hinf⟩ :=
    (invariant_informed u.handler _).run (fun _ _ => trivial) hr ⟨p₀, hp₀, hf.informed⟩
  exact doomed_of_informed hp hinf ha

/-- The task is lost while the first record waits for it, and the push of that record fails. -/
theorem tellsLoss_twoRecords :
    ∃ b, (Usage.twoRecords.begin 0).bridge.run? Usage.twoRecords.handler
        (List.replicate 4 .produce ++ .loseConsumer :: List.replicate 3 .consume ++ [.produce]) =
          some b ∧
      b.abort? = some .handlerAborted ∧ b.completion? = some (.failed .consumerDropped) ∧
      TellsLoss Usage.twoRecords.handler (Usage.twoRecords.begin 0).bridge
        (List.replicate 4 .produce ++ .loseConsumer :: List.replicate 3 .consume ++ [.produce])
        b := by
  have hc : (Usage.twoRecords.begin 0).failure? = none := by decide +kernel
  have hv : ((Usage.twoRecords.begin 0).bridge.run? Usage.twoRecords.handler
      (List.replicate 4 .produce ++ .loseConsumer :: List.replicate 3 .consume ++
        [.produce])).map (fun b => (b.abort?, b.completion?)) =
      some (some .handlerAborted, some (.failed .consumerDropped)) := by decide +kernel
  obtain ⟨b, hr, hv⟩ := Option.map_eq_some_iff.mp hv
  obtain ⟨ha, hv⟩ := Prod.mk.inj hv
  exact ⟨b, hr, ha, hv, tellsLoss_of_run _ 0 hc hr⟩

end Bridge

end Handoff
