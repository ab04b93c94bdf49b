import Handoff.Proofs.Lockstep

/-! The completion of a bridge comes after its whole teardown, and it comes once. -/
namespace Handoff

/-- What neither the consumer nor anyone outside does to the link. -/
structure Link.Frame {σ : Type} (l l' : Link σ) : Prop where
  hasSender : l'.queue.hasSender = l.queue.hasSender
  liveness : l'.liveness = l.liveness
  entries : (Tally.ofTrace l'.trace).entries = (Tally.ofTrace l.trace).entries
  outcomes : (Tally.ofTrace l'.trace).outcomes = (Tally.ofTrace l.trace).outcomes
  retirements : (Tally.ofTrace l'.trace).retirements = (Tally.ofTrace l.trace).retirements
  trace : l.trace <+: l'.trace

namespace Link

variable {σ : Type} {l l' : Link σ}

theorem frame_refl (l : Link σ) : l.Frame l := ⟨rfl, rfl, rfl, rfl, rfl, List.prefix_rfl⟩

theorem Aside.frame (hs : l.Aside l') : l.Frame l' where
  hasSender := by rw [hs.queue]
  liveness := hs.liveness
  entries := by rw [hs.tally]
  outcomes := by rw [hs.tally]
  retirements := by rw [hs.tally]
  trace := hs.trace_grows

end Link

namespace Producer.Place

@[simp] def isRetired : Producer.Place → Bool
  | marking _ | releasing _ | ended _ => true
  | starting | fetching | waiting | pushing _ | calling _ | retiring _ | aborted _ => false

@[simp] def liveness : Producer.Place → Liveness
  | releasing _ | ended _ => .terminated
  | starting | fetching | waiting | pushing _ | calling _ | retiring _ | marking _ | aborted _ =>
    .running

end Producer.Place

namespace Consumer.Place

@[simp] def isClosing : Consumer.Place → Bool
  | awaiting | joining _ | resolving _ => true
  | fresh | receiving | handling .. | returning _ | unwinding _ | leaving _ | gone => false

@[simp] def isLeaving : Consumer.Place → Bool
  | leaving _ | gone => true
  | fresh | receiving | handling .. | returning _ | unwinding _ | awaiting | joining _
  | resolving _ => false

end Consumer.Place

variable {σ : Type}

/-- The sender, the flag and the fetcher follow the producer's place. -/
structure Producer.Tidy (p : Producer) (l : Link σ) : Prop where
  sender : l.queue.hasSender = p.exit?.isNone
  liveness : l.liveness = p.place.liveness
  retired : p.place.isRetired →
    ∃ panic?, (Tally.ofTrace l.trace).retirements = [panic?] ∧
      .fetcherDropped .running panic? ∈ l.trace
  unretired : p.place.isRetired = false → (Tally.ofTrace l.trace).retirements = []

/-- A verdict over a producer that has ended and was joined. -/
structure Judged (generation : UInt32) (p : Producer) (l : Link σ) (v : Completion) : Prop where
  ended : ∃ exit, p.place = .ended exit ∧ v = .ofExit p.delivered generation exit
  joined : .joined v.isOk ∈ l.trace

/-- What the consumer knows at its places and what it has told. -/
structure Informed (generation : UInt32) (p : Producer) (c : Consumer) (l : Link σ) : Prop where
  closing : c.place.isClosing → p.exit?.isSome
  joining : ∀ g, c.place = .joining g → g = generation
  sent : ∀ g, c.context = .sent g → g = generation
  resolving : ∀ v, c.place = .resolving v → Judged generation p l v
  told : ∀ v, c.signal.value = some v →
    v = .failed .consumerDropped ∨ (Judged generation p l v ∧ c.place.isLeaving)

theorem Signal.value_send_of_some {s : Signal} {v : Completion} (hs : s.value = some v)
    (w : Completion) : (s.send w).value = some v := by
  simp [send, hs]

theorem Signal.eq_or_eq_of_send {s : Signal} {v w : Completion} (hs : (s.send w).value = some v) :
    s.value = some v ∨ v = w := by
  unfold send at hs
  split at hs
  · exact .inr (Option.some.inj hs).symm
  · exact .inl hs

namespace Consumer

theorem dropPart_frame (c : Consumer) (l : Link σ) (part : Part) :
    (c.dropPart l part).1.invocations = c.invocations ∧
      (c.dropPart l part).1.panic? = c.panic? := by
  cases part with
  | context =>
    obtain ⟨_, _, hdrop⟩ := c.dropContext_eq
    simp [dropPart, hdrop]
  | handler | receiver => exact ⟨rfl, rfl⟩

theorem signal_dropPart (c : Consumer) (l : Link σ) (part : Part) :
    (c.dropPart l part).1.signal = c.signal ∨
      (c.dropPart l part).1.signal = c.signal.abandon := by
  cases part with
  | context =>
    simp only [dropPart, dropContext]
    split
    · exact .inr rfl
    all_goals exact .inl rfl
  | handler | receiver => exact .inl rfl

theorem context_dropPart (c : Consumer) (l : Link σ) (part : Part) {g : UInt32}
    (hc : (c.dropPart l part).1.context = .sent g) : c.context = .sent g := by
  cases part with
  | context =>
    simp only [dropPart, dropContext] at hc
    split at hc <;> simp_all
  | handler | receiver => exact hc

end Consumer

variable [Feed σ] {h : Handler} {exit? : Option (Exit × Nat)} {p p' : Producer} {c c' : Consumer}
  {l l' : Link σ} {g : UInt32}

theorem Consumer.Step.frame (hs : c.Step h exit? l c' l') : l.Frame l' := by
  cases hs with
  | take hp hq =>
    obtain ⟨rest, -, rfl⟩ := CallQueue.take?_eq_some hq
    exact ⟨rfl, rfl, by simp, by simp, by simp, by simp⟩
  | act hp => exact (c.act_aside l _ _ _ _).frame
  | finish hp => exact ⟨rfl, rfl, by simp, by simp, by simp, by simp⟩
  | answer hp | unwind hp => exact ⟨rfl, rfl, rfl, rfl, rfl, List.prefix_rfl⟩
  | judge hp he => exact ⟨rfl, rfl, by simp, by simp, by simp, by simp⟩
  | @drop part _ hp =>
    cases part with
    | context => exact l.frame_refl
    | handler =>
      exact ⟨rfl, rfl, by simp [dropPart], by simp [dropPart], by simp [dropPart],
        by simp [dropPart]⟩
    | receiver =>
      exact ⟨rfl, rfl, by simp [dropPart], by simp [dropPart], by simp [dropPart],
        by simp [dropPart]⟩
  | begin hp | drained hp | join hp | giveUp hp | resolve hp | leave hp => exact l.frame_refl

namespace Producer

theorem Step.trace_grows (hs : p.Step l p' l') : l.trace <+: l'.trace := by
  cases hs with
  | push | collectHandled => exact List.prefix_rfl
  | _ => simp [Link.note]

theorem Step.exit?_eq_none (hs : p.Step l p' l') : p.exit? = none := by
  cases hs <;> simp_all [exit?]

omit [Feed σ] in
theorem Tidy.frame (hi : p.Tidy l) (hs : l.Frame l') : p.Tidy l' where
  sender := hs.hasSender.trans hi.sender
  liveness := hs.liveness.trans hi.liveness
  retired hp := by
    obtain ⟨panic?, hr, hm⟩ := hi.retired hp
    exact ⟨panic?, hs.retirements.trans hr, hs.trace.subset hm⟩
  unretired hp := hs.retirements.trans (hi.unretired hp)

omit [Feed σ] in
theorem place_of_exit? {exit : Exit} (he : p.exit? = some exit) : p.place = .ended exit := by
  unfold exit? at he
  split at he <;> cases he
  assumption

omit [Feed σ] in
theorem Place.afterFetch_isRetired (o : Outcome) : (Place.afterFetch o).isRetired = false := by
  cases o <;> rfl

omit [Feed σ] in
theorem exit?_of_unretired (hr : p.place.isRetired = false) : p.exit? = none := by
  unfold exit?
  split <;> simp_all

omit [Feed σ] in
theorem Place.liveness_of_unretired {place : Place} (hr : place.isRetired = false) :
    place.liveness = .running := by
  cases place <;> simp_all

omit [Feed σ] in
theorem Tidy.goOn (hi : p.Tidy l) (hr : p.place.isRetired = false)
    (hr' : p'.place.isRetired = false) (hs : l'.queue.hasSender = l.queue.hasSender)
    (hl : l'.liveness = l.liveness)
    (ht : (Tally.ofTrace l'.trace).retirements = (Tally.ofTrace l.trace).retirements) :
    p'.Tidy l' where
  sender := by rw [hs, hi.sender, exit?_of_unretired hr, exit?_of_unretired hr']
  liveness := by
    rw [hl, hi.liveness, Place.liveness_of_unretired hr, Place.liveness_of_unretired hr']
  retired hp := by
    rw [hr'] at hp
    cases hp
  unretired _ := ht.trans (hi.unretired hr)

theorem Tidy.produce (hi : p.Tidy l) (hs : p.Step l p' l') : p'.Tidy l' := by
  cases hs with
  | start hp => exact hi.goOn (by simp [hp]) rfl rfl rfl (by simp)
  | enterWaiting hp hf => exact hi.goOn (by simp [hp]) rfl rfl rfl (by simp)
  | enterAnswered hp hf | receive hp hf =>
    exact hi.goOn (by simp [hp]) (Place.afterFetch_isRetired _) rfl rfl (by simp)
  | pushRefused hp hq => exact hi.goOn (by simp [hp]) rfl rfl rfl (by simp)
  | push hp hq =>
    cases CallQueue.push?_eq_some hq
    exact hi.goOn (by simp [hp]) rfl rfl rfl rfl
  | collectHandled hp hq =>
    exact hi.goOn (by simp [hp]) rfl (by rw [CallQueue.collect?_eq_some hq]) rfl rfl
  | collectFailed hp hq =>
    exact hi.goOn (by simp [hp]) rfl (by simp [CallQueue.collect?_eq_some hq]) rfl (by simp)
  | @retire exit _ _ hp hf =>
    have hlive : l.liveness = .running := by rw [hi.liveness, hp]; rfl
    have hret := hi.unretired (by simp [hp])
    refine ⟨by simpa [exit?, hp] using hi.sender, hlive, fun _ => ?_, by simp⟩
    exact ⟨exit.raised? (Feed.retirePanic? l.feed), by simp [hret], by simp [hlive]⟩
  | mark hp =>
    refine ⟨by simpa [exit?, hp] using hi.sender, rfl, fun _ => ?_, by simp⟩
    obtain ⟨panic?, hr, hm⟩ := hi.retired (by simp [hp])
    exact ⟨panic?, by simpa using hr, by simp [hm]⟩
  | release hp =>
    have hlive : l.liveness = .terminated := by rw [hi.liveness, hp]; rfl
    obtain ⟨panic?, hr, hm⟩ := hi.retired (by simp [hp])
    refine ⟨rfl, hlive, fun _ => ⟨panic?, ?_, ?_⟩, by simp⟩
    · simpa using hr
    · simp [Link.note, hm]

end Producer

namespace Consumer.Step

theorem isClosing (hs : c.Step h exit? l c' l') (hc : c'.place.isClosing) :
    c.place.isClosing ∨ l.queue.hasSender = false := by
  cases hs with
  | drained hp hq hn => exact .inr hn
  | join hp | judge hp | giveUp hp | resolve hp => exact .inl (by simp [hp])
  | @act _ _ a _ hp => cases a <;> simp [Consumer.act] at hc
  | _ => simp at hc

theorem isLeaving (hs : c.Step h exit? l c' l') (hc : c.place.isLeaving) : c'.place.isLeaving := by
  cases hs with
  | drop hp | leave hp => rfl
  | _ => simp_all

theorem joining (hs : c.Step h exit? l c' l') (hc : c'.place = .joining g) :
    c.context = .sent g := by
  cases hs with
  | join hp hc' => cases hc; exact hc'
  | @act _ _ a _ hp => cases a <;> simp [Consumer.act] at hc
  | _ => simp at hc

theorem sent (hs : c.Step h exit? l c' l') (hc : c'.context = .sent g) : c.context = .sent g := by
  cases hs with
  | join hp => simp at hc
  | act hp => rwa [(c.act_frame l _ _ _ _).2.1] at hc
  | drop hp => exact c.context_dropPart l _ hc
  | _ => exact hc

/-- A verdict is found when the producer is joined. -/
theorem resolving {v : Completion} (hs : c.Step h exit? l c' l') (hc : c'.place = .resolving v) :
    ∃ g exit n, c.place = .joining g ∧ exit? = some (exit, n) ∧ v = .ofExit n g exit ∧
      .joined v.isOk ∈ l'.trace := by
  cases hs with
  | judge hp he => cases hc; exact ⟨_, _, _, hp, he, rfl, by simp⟩
  | @act _ _ a _ hp => cases a <;> simp [Consumer.act] at hc
  | _ => simp at hc

theorem signal (hs : c.Step h exit? l c' l') :
    c'.signal = c.signal ∨ ∃ v, c'.signal = c.signal.send v ∧
      (v = .failed .consumerDropped ∨ (c.place = .resolving v ∧ c'.place.isLeaving)) := by
  cases hs with
  | resolve hp => exact .inr ⟨_, rfl, .inr ⟨hp, rfl⟩⟩
  | act hp => exact .inl (c.act_frame l _ _ _ _).2.2
  | drop hp => exact (c.signal_dropPart l _).imp_right fun hsent => ⟨_, hsent, .inl rfl⟩
  | _ => exact .inl rfl

theorem told {v : Completion} (hs : c.Step h exit? l c' l') (hv : c'.signal.value = some v) :
    c.signal.value = some v ∨ v = .failed .consumerDropped ∨
      (c.place = .resolving v ∧ c'.place.isLeaving) := by
  rcases hs.signal with hsignal | ⟨w, hsignal, hw⟩
  · rw [hsignal] at hv
    exact .inl hv
  · rw [hsignal] at hv
    rcases Signal.eq_or_eq_of_send hv with hv | rfl
    · exact .inl hv
    · exact .inr hw

theorem value_of_some {v : Completion} (hs : c.Step h exit? l c' l')
    (hv : c.signal.value = some v) : c'.signal.value = some v := by
  rcases hs.signal with hsignal | ⟨w, hsignal, -⟩
  · rw [hsignal, hv]
  · rw [hsignal]
    exact Signal.value_send_of_some hv w

end Consumer.Step

omit [Feed σ] in
theorem Judged.frame {v : Completion} (hj : Judged g p l v) (hs : l.Frame l') : Judged g p l' v :=
  ⟨hj.ended, hs.trace.subset hj.joined⟩

namespace Informed

theorem produce (hi : Informed g p c l) (hs : p.Step l p' l') : Informed g p' c l' := by
  have hp := hs.exit?_eq_none
  have hn : ∀ v, ¬ Judged g p l v := by
    rintro v ⟨⟨exit, he, -⟩, -⟩
    simp [Producer.exit?, he] at hp
  exact {
    closing := fun hc => by simpa [hp] using hi.closing hc
    joining := hi.joining
    sent := hi.sent
    resolving := fun v hv => (hn v (hi.resolving v hv)).elim
    told := fun v hv => (hi.told v hv).imp_right fun hj => (hn v hj.1).elim }

theorem consume (hi : Informed g p c l) (ht : p.Tidy l)
    (hs : c.Step h (p.exit?.map fun exit => (exit, p.delivered)) l c' l') :
    Informed g p c' l' where
  closing hc := by
    rcases hs.isClosing hc with hc | hq
    · exact hi.closing hc
    · simpa [hq] using ht.sender
  joining g' hc := hi.sent g' (hs.joining hc)
  sent g' hc := hi.sent g' (hs.sent hc)
  resolving v hc := by
    obtain ⟨g', exit, n, hj, he, rfl, hm⟩ := hs.resolving hc
    obtain ⟨exit', he', hn⟩ := Option.map_eq_some_iff.mp he
    cases hn
    cases hi.joining g' hj
    exact ⟨⟨exit, Producer.place_of_exit? he', rfl⟩, hm⟩
  told v hv := by
    rcases hs.told hv with hv | rfl | ⟨hp, hc⟩
    · exact (hi.told v hv).imp_right fun hj => ⟨hj.1.frame hs.frame, hs.isLeaving hj.2⟩
    · exact .inl rfl
    · exact .inr ⟨(hi.resolving v hp).frame hs.frame, hc⟩

omit [Feed σ] in
theorem aside (hi : Informed g p c l) (hs : l.Aside l') : Informed g p c l' where
  closing := hi.closing
  joining := hi.joining
  sent := hi.sent
  resolving v hv := (hi.resolving v hv).frame hs.frame
  told v hv := (hi.told v hv).imp_right fun hj => ⟨hj.1.frame hs.frame, hj.2⟩

omit [Feed σ] in
theorem lose (hi : Informed g p c l) (hl : c.lose? = some c') : Informed g p c' l := by
  obtain ⟨-, parts, rfl⟩ := Consumer.lose?_eq_some hl
  exact {
    closing := by simp
    joining := by simp
    sent := hi.sent
    resolving := by simp
    told := fun v hv => (hi.told v hv).imp_right fun hj => ⟨hj.1, rfl⟩ }

omit [Feed σ] in
theorem letGo (hi : Informed g p c l) : Informed g p { c with signal := c.signal.letGo } l :=
  ⟨hi.closing, hi.joining, hi.sent, hi.resolving, hi.told⟩

end Informed

structure Over (y : Tally) (p : Producer) (c : Consumer) (l : Link σ) : Prop where
  producer : p.exit?.isSome
  consumer : c.place.isLeaving
  tally : Tally.ofTrace l.trace = y

omit [Feed σ] in
theorem Consumer.lose?_of_isLeaving (hc : c.place.isLeaving) : c.lose? = none := by
  unfold lose?
  split <;> simp_all

theorem Consumer.Step.tally_of_isLeaving (hs : c.Step h exit? l c' l') (hc : c.place.isLeaving) :
    Tally.ofTrace l'.trace = Tally.ofTrace l.trace := by
  cases hs with
  | @drop part _ hp => cases part <;> simp [dropPart]
  | leave hp => rfl
  | _ => simp_all

namespace Bridge

theorem trace_grows_of_step {b b' : Bridge σ} {label : Label}
    (hs : b.step? h label = some b') : b.link.trace <+: b'.link.trace := by
  cases (step?_eq_some_iff.mp hs).2 with
  | produce _ hside => exact hside.trace_grows
  | consume hside => exact hside.frame.trace
  | raise => exact b.link.aside_raise.trace_grows
  | wake => exact b.link.aside_wake.trace_grows
  | publish x => exact (b.link.aside_publish x).trace_grows
  | loseConsumer | letGo => exact List.prefix_rfl

theorem trace_grows_of_run {labels : List Label} {b b' : Bridge σ}
    (hr : b.run? h labels = some b') : b.link.trace <+: b'.link.trace := by
  induction labels generalizing b with
  | nil => cases hr; exact List.prefix_rfl
  | cons label rest ih =>
    obtain ⟨m, hs, hr⟩ := Option.bind_eq_some_iff.mp hr
    exact (trace_grows_of_step hs).trans (ih hr)

theorem invariant_informed (h : Handler) (g : UInt32) :
    Invariant h (fun _ => True) (fun p c (l : Link σ) => p.Tidy l ∧ Informed g p c l) where
  produce _ hi hs := ⟨hi.1.produce hs, hi.2.produce hs⟩
  consume _ hi _ hs := ⟨hi.1.frame hs.frame, hi.2.consume hi.1 hs⟩
  aside _ _ hi :=
    ⟨hi.1.frame (Link.aside_outside _ _).frame, hi.2.aside (Link.aside_outside _ _)⟩
  lose _ hi hs := ⟨hi.1, hi.2.lose hs⟩
  letGo _ hi := ⟨hi.1, hi.2.letGo⟩

theorem invariant_over (h : Handler) (y : Tally) :
    Invariant h (fun _ => True) (Over (σ := σ) y) where
  produce _ hi hs := by
    have hp := hi.producer
    simp [hs.exit?_eq_none] at hp
  consume _ hi _ hs :=
    ⟨hi.producer, hs.isLeaving hi.consumer, (hs.tally_of_isLeaving hi.consumer).trans hi.tally⟩
  aside _ _ hi :=
    ⟨hi.producer, hi.consumer, (Link.aside_outside _ _).tally.trans hi.tally⟩
  lose _ hi hs := by simp [Consumer.lose?_of_isLeaving hi.consumer] at hs
  letGo _ hi := ⟨hi.producer, hi.consumer, hi.tally⟩

theorem invariant_value (h : Handler) (v : Completion) :
    Invariant h (fun _ => True) (fun _ c (_ : Link σ) => c.signal.value = some v) where
  produce _ hi _ := hi
  consume _ hi _ hs := hs.value_of_some hi
  aside _ _ hi := hi
  lose _ hi hs := by
    obtain ⟨-, parts, rfl⟩ := Consumer.lose?_eq_some hs
    exact hi
  letGo _ hi := hi

omit [Feed σ] in
theorem Fresh.informed (hf : Fresh g p c l) : p.Tidy l ∧ Informed g p c l := by
  obtain ⟨rfl, hplace, -, -, hcontext, hvalue, hqueue, hlive, ht⟩ := hf
  constructor
  · exact {
      sender := by simp [hqueue, Producer.exit?]
      liveness := hlive
      retired := by simp
      unretired := fun _ => by rw [Tally.ofTrace_of_isQuiet ht] }
  · exact {
      closing := by simp [hplace]
      joining := by simp [hplace]
      sent := by simp [hcontext, eq_comm]
      resolving := by simp [hplace]
      told := by simp [hvalue] }

/-- Nothing of a bridge is left to do but to drop the handler, whatever happens to it. -/
structure TornDown (h : Handler) (b : Bridge σ) (v : Completion) : Prop where
  /-- The fetcher was dropped once, while the producer still counted as running. -/
  fetcher : ∃ panic?, (Tally.ofTrace b.link.trace).retirements = [panic?] ∧
    .fetcherDropped .running panic? ∈ b.link.trace
  liveness : b.link.liveness = .terminated
  sender : b.link.queue.hasSender = false
  closed : b.link.queue.isClosed
  ended : b.exit?.isSome
  joined : .joined v.isOk ∈ b.link.trace
  /-- Nothing is fetched or handled any more. -/
  quiet : ∀ {more b'}, b.run? h more = some b' →
    Tally.ofTrace b'.link.trace = Tally.ofTrace b.link.trace

/-- A bridge starts without a completion. One that it has stays, and one that tells of the producer
comes after all else. -/
theorem completion_of_run (u : Usage σ) (taken : UInt32) (hc : (u.begin taken).failure? = none)
    {labels : List Label} {b : Bridge σ}
    (hr : (u.begin taken).bridge.run? u.handler labels = some b) :
    (u.begin taken).bridge.completion? = none ∧
      ∀ v, b.completion? = some v →
        (∀ more b', b.run? u.handler more = some b' → b'.completion? = some v) ∧
          (v = .failed .consumerDropped ∨ b.TornDown u.handler v) := by
  obtain ⟨p₀, hp₀, hf⟩ := u.fresh_begin taken hc
  obtain ⟨p, hp, htidy, hinf⟩ :=
    (invariant_informed u.handler _).run (fun _ _ => trivial) hr ⟨p₀, hp₀, hf.informed⟩
  obtain ⟨p', hp', haligned⟩ :=
    (invariant_aligned u.handler).run (fun _ _ => trivial) hr ⟨p₀, hp₀, hf.aligned⟩
  cases hp.symm.trans hp'
  refine ⟨hf.value, fun v hv => ⟨fun more b' hm => ?_, (hinf.told v hv).imp_right fun hj => ?_⟩⟩
  · obtain ⟨-, -, hv'⟩ :=
      (invariant_value u.handler v).run (fun _ _ => trivial) hm ⟨p, hp, hv⟩
    exact hv'
  · obtain ⟨⟨⟨exit, hplace, -⟩, hjoined⟩, hleaving⟩ := hj
    have hended : p.exit?.isSome := by simp [Producer.exit?, hplace]
    have hsender : b.link.queue.hasSender = false := by
      simpa [Option.isSome_iff_ne_none] using htidy.sender.trans (by simpa using hended)
    have hcalls : b.link.queue.calls = [] := by
      simp only [Producer.Aligned, hplace] at haligned
      exact haligned.1.calls
    exact {
      fetcher := htidy.retired (by simp [hplace])
      liveness := by simp [htidy.liveness, hplace]
      sender := hsender
      closed := by simp [CallQueue.isClosed, hcalls, hsender]
      ended := by simpa [exit?_of_producer hp] using hended
      joined := hjoined
      quiet := fun hm => by
        obtain ⟨_, -, hover⟩ := (invariant_over u.handler _).run (fun _ _ => trivial) hm
          ⟨p, hp, hended, hleaving, rfl⟩
        exact hover.tally }

theorem completion_twoRecords :
    ∃ b, (Usage.twoRecords.begin 0).bridge.run? Usage.twoRecords.handler
        Usage.twoRecordsLabels = some b ∧
      b.completion? = some (.finished ⟨2, 1⟩) ∧
      b.TornDown Usage.twoRecords.handler (.finished ⟨2, 1⟩) := by
  have hc : (Usage.twoRecords.begin 0).failure? = none := by decide +kernel
  have hv : ((Usage.twoRecords.begin 0).bridge.run? Usage.twoRecords.handler
      Usage.twoRecordsLabels).map completion? = some (some (.finished ⟨2, 1⟩)) := by
    decide +kernel
  obtain ⟨b, hr, hv⟩ := Option.map_eq_some_iff.mp hv
  obtain ⟨-, hall⟩ := completion_of_run _ 0 hc hr
  obtain ⟨-, hd | hd⟩ := hall _ hv
  · cases hd
  · exact ⟨b, hr, hv, hd⟩

end Bridge

end Handoff
