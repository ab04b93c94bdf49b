import Handoff.Proofs.Teardown

/-! Bridges whose task is kept and whose handler returns: nobody is ever stuck before the end. -/
namespace Handoff

def Handler.IsCalm (h : Handler) : Prop := ∀ n r x, .panic x ∉ h n r

theorem Usage.isCalm_twoRecords : Usage.twoRecords.handler.IsCalm := by
  intro n r x
  simp only [twoRecords]
  split <;> simp

/-- The consumer holds his context until it finalizes, and tells of the end before it leaves. -/
def Consumer.Attended (g : UInt32) (p : Producer) (c : Consumer) : Prop :=
  match c.place with
  | .fresh | .receiving | .returning _ | .awaiting => c.context = .sent g ∧ c.signal.value = none
  | .handling _ _ acts => (∀ x, .panic x ∉ acts) ∧ c.context = .sent g ∧ c.signal.value = none
  | .unwinding _ => False
  | .joining _ => c.context = .used ∧ c.signal.value = none
  | .resolving v => v ≠ .failed .consumerDropped ∧ c.context = .used ∧ c.signal.value = none
  | .leaving parts =>
    parts <:+ [.handler, .receiver] ∧ p.exit?.isSome ∧ c.context = .used ∧
      c.signal.value ≠ some (.failed .consumerDropped) ∧
      (c.signal.isHeld → c.signal.value.isSome)
  | .gone =>
    p.exit?.isSome ∧ c.context = .used ∧ c.signal.value ≠ some (.failed .consumerDropped) ∧
      (c.signal.isHeld → c.signal.value.isSome)

/-- Every call is served. -/
structure Served (p : Producer) (c : Consumer) (q : CallQueue) : Prop where
  receiver : c.place.isLeaving = false → q.hasReceiver
  answers : ∀ ticket e, (ticket, .failed e) ∉ q.answers
  alive : p.abort? = none

/-- What holds at every moment of a bridge whose task is kept and whose handler returns. -/
structure Steady {σ : Type} (g : UInt32) (p : Producer) (c : Consumer) (l : Link σ) : Prop where
  aligned : p.Aligned c.place l.queue (.ofTrace l.trace)
  tidy : p.Tidy l
  informed : Informed g p c l
  attended : c.Attended g p
  served : Served p c l.queue

namespace Completion

theorem ofExit_ne_consumerDropped (n : Nat) (g : UInt32) (exit : Exit) :
    ofExit n g exit ≠ .failed .consumerDropped := by
  cases exit <;> simp [ofExit]

end Completion

variable {σ : Type} [Feed σ] {h : Handler} {p p' : Producer} {c c' : Consumer} {l l' : Link σ}
  {g : UInt32}

namespace Consumer

omit [Feed σ] in
theorem Attended.ended (hi : c.Attended g p) (hc : c.place.isLeaving) : p.exit?.isSome := by
  unfold Attended at hi
  split at hi <;> simp_all

omit [Feed σ] in
theorem Attended.value_ne (hi : c.Attended g p) :
    c.signal.value ≠ some (.failed .consumerDropped) := by
  unfold Attended at hi
  split at hi <;> simp_all

omit [Feed σ] in
theorem Attended.producer (hi : c.Attended g p) (hp : c.place.isLeaving → p'.exit?.isSome) :
    c.Attended g p' := by
  unfold Attended at hi ⊢
  split at hi <;> simp_all

theorem Attended.consume (hh : h.IsCalm) (hi : c.Attended g p)
    (hclosing : c.place.isClosing → p.exit?.isSome) {exit? : Option (Exit × Nat)}
    (hs : c.Step h exit? l c' l') : c'.Attended g p := by
  cases hs with
  | begin hp | drained hp | answer hp | finish hp => simp_all [Attended]
  | take hp hq =>
    simp only [Attended, hp] at hi
    exact ⟨hh _ _, hi⟩
  | @act _ _ a rest hp =>
    simp only [Attended, hp] at hi
    obtain ⟨hcalm, hi⟩ := hi
    have hrest : ∀ x, .panic x ∉ rest := fun x hx => hcalm x (List.mem_cons_of_mem _ hx)
    cases a with
    | panic x => exact (hcalm x List.mem_cons_self).elim
    | stop => exact ⟨by simpa using hrest, hi⟩
    | finishStop | keep | setAside | releaseKept | publish x => exact ⟨hrest, hi⟩
  | unwind hp => simp [Attended, hp] at hi
  | join hp hc => simp_all [Attended]
  | giveUp hp hc => simp_all [Attended]
  | judge hp he =>
    simp only [Attended, hp] at hi
    exact ⟨Completion.ofExit_ne_consumerDropped _ _ _, hi⟩
  | resolve hp =>
    simp only [Attended, hp] at hi
    obtain ⟨hv, hc, hn⟩ := hi
    refine ⟨List.suffix_rfl, hclosing (by simp [hp]), hc, ?_⟩
    cases hh : c.signal.isHeld <;> simp [Signal.send, hn, hh, hv]
  | @drop part _ hp =>
    simp only [Attended, hp] at hi
    obtain ⟨hparts, he, hc, hv⟩ := hi
    have hrest := (List.suffix_cons _ _).trans hparts
    cases part <;> simpa [Attended, dropPart, dropContext, hc] using ⟨hrest, he, hv⟩
  | leave hp => simp_all [Attended]

omit [Feed σ] in
theorem Attended.letGo (hi : c.Attended g p) :
    ({ c with signal := c.signal.letGo } : Consumer).Attended g p := by
  unfold Attended at hi ⊢
  split at hi <;> simp_all [Signal.letGo]

end Consumer

namespace Served

omit [Feed σ] in
theorem of_eq {q q' : CallQueue} (hi : Served p c q) (hr : q'.hasReceiver = q.hasReceiver)
    (ha : q'.answers ⊆ q.answers) (hc : c'.place.isLeaving = false → c.place.isLeaving = false)
    (hp : p'.abort? = none) : Served p' c' q' where
  receiver hl := hr.trans (hi.receiver (hc hl))
  answers ticket e hm := hi.answers ticket e (ha hm)
  alive := hp

theorem produce (hi : Served p c l.queue) (hc : c.place.isLeaving = false) (hs : p.Step l p' l') :
    Served p' c l'.queue := by
  cases hs with
  | start hp | enterWaiting hp hf | retire hp hf | mark hp | release hp =>
    exact hi.of_eq rfl (fun _ h => h) id rfl
  | @enterAnswered _ o _ hp hf | @receive _ o _ hp hf =>
    exact hi.of_eq rfl (fun _ h => h) id (by cases o <;> rfl)
  | pushRefused hp hq =>
    have hr := CallQueue.push?_eq_none_iff.mp hq
    simp [hi.receiver hc] at hr
  | push hp hq =>
    cases CallQueue.push?_eq_some hq
    exact hi.of_eq rfl (fun _ h => h) id rfl
  | collectHandled hp hq =>
    cases CallQueue.collect?_eq_some hq
    exact hi.of_eq rfl (fun _ h => (List.mem_filter.mp h).1) id rfl
  | collectFailed hp hq => exact (hi.answers _ _ (CallQueue.mem_answers_of_collect? hq)).elim

theorem consume (hi : Served p c l.queue) (ha : c.Attended g p)
    (hq : c.place.isLeaving → l.queue.calls = []) {exit? : Option (Exit × Nat)}
    (hs : c.Step h exit? l c' l') : Served p c' l'.queue := by
  have hstay : c'.place.isLeaving = false → c.place.isLeaving = false := by
    intro hc'
    cases hc : c.place.isLeaving with
    | false => rfl
    | true =>
      have hleaving := hs.isLeaving hc
      rw [hc'] at hleaving
      cases hleaving
  cases hs with
  | take hp ht =>
    obtain ⟨rest, -, rfl⟩ := CallQueue.take?_eq_some ht
    exact hi.of_eq rfl (fun _ h => h) hstay hi.alive
  | act hp =>
    rw [(c.act_aside l _ _ _ _).queue]
    exact hi.of_eq rfl (fun _ h => h) hstay hi.alive
  | answer hp =>
    refine ⟨fun hc => hi.receiver (hstay hc), fun ticket e => ?_, hi.alive⟩
    simpa [CallQueue.answer] using hi.answers ticket e
  | unwind hp => simp [Consumer.Attended, hp] at ha
  | @drop part _ hp =>
    cases part with
    | context | handler => exact hi.of_eq rfl (fun _ h => h) hstay hi.alive
    | receiver =>
      have hcalls := hq (by simp [hp])
      refine ⟨by simp, fun ticket e => ?_, hi.alive⟩
      simpa [Consumer.dropPart, CallQueue.dropReceiver_of_calls_eq_nil hcalls] using
        hi.answers ticket e
  | _ => exact hi.of_eq rfl (fun _ h => h) hstay hi.alive

end Served

namespace Steady

omit [Feed σ] in
theorem calls (hi : Steady g p c l) (he : p.exit?.isSome) : l.queue.calls = [] := by
  have ha := hi.aligned
  cases hp : p.place <;> simp_all [Producer.exit?, Producer.Aligned]
  exact ha.1.calls

omit [Feed σ] in
/-- A call that is not answered yet has a producer who waits for it. -/
theorem calling (hi : Steady g p c l) (hc : c.place.ticket? ≠ none ∨ l.queue.calls ≠ []) :
    ∃ ticket, p.place = .calling ticket ∧
      Calling c.place l.queue (.ofTrace l.trace) ticket p.delivered := by
  have ha := hi.aligned
  have halive := hi.served.alive
  cases hp : p.place with
  | calling ticket =>
    simp only [Producer.Aligned, hp] at ha
    exact ⟨ticket, rfl, ha.1⟩
  | aborted e => simp [Producer.abort?, hp] at halive
  | starting | fetching | waiting | pushing _ | retiring _ | marking _ | releasing _ | ended _ =>
    simp only [Producer.Aligned, hp] at ha
    exact (hc.elim (· ha.1.ticket) (· ha.1.calls)).elim

theorem leaving_of_produce (hi : Steady g p c l) (hs : p.Step l p' l') :
    c.place.isLeaving = false := by
  cases hc : c.place.isLeaving with
  | false => rfl
  | true =>
    have he := hi.attended.ended hc
    simp [hs.exit?_eq_none] at he

theorem produce (hi : Steady g p c l) (hs : p.Step l p' l') : Steady g p' c l' := by
  have hc := hi.leaving_of_produce hs
  have hended : c.place.isLeaving → p'.exit?.isSome := by
    intro hl
    rw [hc] at hl
    cases hl
  exact {
    aligned := hi.aligned.produce hs
    tidy := hi.tidy.produce hs
    informed := hi.informed.produce hs
    attended := hi.attended.producer hended
    served := hi.served.produce hc hs }

theorem consume (hh : h.IsCalm) (hi : Steady g p c l)
    (hs : c.Step h (p.exit?.map fun exit => (exit, p.delivered)) l c' l') : Steady g p c' l' where
  aligned := hi.aligned.consume hi.served.alive hs
  tidy := hi.tidy.frame hs.frame
  informed := hi.informed.consume hi.tidy hs
  attended := hi.attended.consume hh hi.informed.closing hs
  served := hi.served.consume hi.attended (fun hc => hi.calls (hi.attended.ended hc)) hs

omit [Feed σ] in
theorem aside (hi : Steady g p c l) (hs : l.Aside l') : Steady g p c l' where
  aligned := by rw [hs.queue, hs.tally]; exact hi.aligned
  tidy := hi.tidy.frame hs.frame
  informed := hi.informed.aside hs
  attended := hi.attended
  served := by rw [hs.queue]; exact hi.served

end Steady

omit [Feed σ] in
theorem Bridge.Fresh.steady (hf : Fresh g p c l) :
    Steady g p c l where
  aligned := hf.aligned
  tidy := hf.informed.1
  informed := hf.informed.2
  attended := by simp [Consumer.Attended, hf.place, hf.context, hf.value]
  served := ⟨by simp [hf.queue], by simp [hf.queue], by simp [hf.producer, Producer.abort?]⟩

theorem Bridge.invariant_steady (hh : h.IsCalm) (g : UInt32) :
    Invariant h (· ≠ .loseConsumer) (Steady (σ := σ) g) where
  produce _ hi hs := hi.produce hs
  consume _ hi _ hs := hi.consume hh hs
  aside _ _ hi := hi.aside (Link.aside_outside _ _)
  lose ha := (ha rfl).elim
  letGo _ hi := ⟨hi.aligned, hi.tidy, hi.informed.letGo, hi.attended.letGo,
    ⟨hi.served.receiver, hi.served.answers, hi.served.alive⟩⟩

inductive Producer.Stuck (p : Producer) (l : Link σ) : Prop where
  | waiting (hp : p.place = .waiting) (hf : Feed.receive? l.feed = none)
  | calling {ticket} (hp : p.place = .calling ticket) (hq : l.queue.collect? ticket = none)
  | ended (he : p.exit?.isSome)
  | aborted (ha : p.abort?.isSome)

inductive Consumer.Stuck (c : Consumer) (exit? : Option (Exit × Nat)) (l : Link σ) : Prop where
  | receiving (hp : c.place = .receiving) (hq : l.queue.calls = []) (hs : l.queue.hasSender)
  | awaiting (hp : c.place = .awaiting) (hc : c.context = .awaited)
  | joining {g : UInt32} (hp : c.place = .joining g) (he : exit? = none)
  | gone (hp : c.place = .gone)

theorem Producer.stuck_of_step?_eq_none (hs : p.step? l = none) : p.Stuck l := by
  cases hp : p.place with
  | waiting =>
    cases hf : Feed.receive? l.feed with
    | none => exact .waiting hp hf
    | some answer => simp [step?, hp, hf] at hs
  | calling ticket =>
    rcases hq : l.queue.collect? ticket with _ | ⟨_ | e, q⟩
    · exact .calling hp hq
    all_goals simp [step?, hp, hq] at hs
  | pushing r => cases hq : l.queue.push? r <;> simp [step?, hp, hq] at hs
  | fetching =>
    rcases hf : Feed.enter l.feed with ⟨f, _ | o, rs⟩ <;> simp [step?, hp, hf] at hs
  | ended exit => exact .ended (by simp [exit?, hp])
  | aborted e => exact .aborted (by simp [abort?, hp])
  | starting | retiring _ | marking _ | releasing _ => simp [step?, hp] at hs

theorem Consumer.stuck_of_step?_eq_none {exit? : Option (Exit × Nat)}
    (hs : c.step? h exit? l = none) : c.Stuck exit? l := by
  cases hp : c.place with
  | receiving =>
    cases hq : l.queue.take? with
    | none =>
      exact .receiving hp (CallQueue.take?_eq_none_iff.mp hq) (by simpa [step?, hp, hq] using hs)
    | some taken => simp [step?, hp, hq] at hs
  | awaiting => cases hc : c.context <;> simp [step?, hp, hc] at hs; exact .awaiting hp hc
  | joining g =>
    cases exit? with
    | none => exact .joining hp rfl
    | some e => simp [step?, hp] at hs
  | gone => exact .gone hp
  | handling call isHeld acts => cases acts <;> simp [step?, hp] at hs
  | leaving parts => cases parts <;> simp [step?, hp] at hs
  | fresh | returning _ | unwinding _ | resolving _ => simp [step?, hp] at hs

namespace Steady

/-- The consumer waits for a record only, and for that only while the producer has not ended. -/
theorem consumer_waits (hi : Steady g p c l)
    (hc : c.step? h (p.exit?.map fun exit => (exit, p.delivered)) l = none) :
    (c.place = .receiving ∧ l.queue.calls = [] ∧ p.exit? = none) ∨
      (p.exit?.isSome ∧ c.place = .gone) := by
  cases Consumer.stuck_of_step?_eq_none hc with
  | receiving hc hq hs =>
    rw [hi.tidy.sender] at hs
    exact .inl ⟨hc, hq, Option.isNone_iff_eq_none.mp hs⟩
  | awaiting hc hslot =>
    have ha := hi.attended
    simp [Consumer.Attended, hc, hslot] at ha
  | joining hc hn =>
    have he := hi.informed.closing (by simp [hc])
    simp [Option.isSome_iff_ne_none.mp he] at hn
  | gone hc => exact .inr ⟨hi.attended.ended (by simp [hc]), hc⟩

/-- The producer waits for the source only, or for the handler. -/
theorem producer_waits (hi : Steady g p c l) (hp : p.step? l = none) :
    (p.place = .waiting ∧ Feed.receive? l.feed = none) ∨ p.exit?.isSome ∨
      l.queue.calls ≠ [] ∨ c.place.ticket?.isSome := by
  cases Producer.stuck_of_step?_eq_none hp with
  | waiting hp hf => exact .inl ⟨hp, hf⟩
  | ended he => exact .inr (.inl he)
  | aborted ha => simp [hi.served.alive] at ha
  | calling hp hq =>
    have haligned := hi.aligned
    simp only [Producer.Aligned, hp] at haligned
    cases haligned.1 with
    | queued _ hcalls => exact .inr (.inr (.inl (by simp [hcalls])))
    | taken hc | returning hc | unwinding hc => exact .inr (.inr (.inr (by simp [hc])))
    | handled _ _ ha => simp [CallQueue.collect?_of_answers_eq ha] at hq
    | failed _ _ ha => simp [CallQueue.collect?_of_answers_eq ha] at hq

/-- When neither side can go on, the source has nothing to answer or both have ended. -/
theorem rest (hi : Steady g p c l) (hp : p.step? l = none)
    (hc : c.step? h (p.exit?.map fun exit => (exit, p.delivered)) l = none) :
    (p.place = .waiting ∧ Feed.receive? l.feed = none) ∨ (p.exit?.isSome ∧ c.place = .gone) := by
  rcases hi.consumer_waits hc with ⟨hplace, hcalls, he⟩ | hgone
  · rcases hi.producer_waits hp with hw | he' | hcalls' | ht
    · exact .inl hw
    · simp [he] at he'
    · exact (hcalls' hcalls).elim
    · simp [hplace] at ht
  · exact .inr hgone

end Steady

theorem Bridge.rest_of_advance? {b : Bridge σ} (hp : b.producer = some p) (ha : p.abort? = none)
    (hr : b.advance? h = none) :
    p.step? b.link = none ∧
      b.consumer.step? h (p.exit?.map fun exit => (exit, p.delivered)) b.link = none := by
  have hdead : b.abort? = none := (abort?_of_producer hp).trans ha
  have hnone (label : Label) (hs : b.step? h label = none) (b' : Bridge σ) : ¬ Step h b label b' :=
    fun hs' => by simp [step?_eq_some_iff.mpr ⟨hdead, hs'⟩] at hs
  obtain ⟨hc, hp'⟩ : b.step? h .consume = none ∧ b.step? h .produce = none := by
    simpa [advance?] using hr
  constructor
  · cases hs : p.step? b.link with
    | none => rfl
    | some next => exact (hnone _ hp' _ (.produce hp (Producer.step?_eq_some_iff.mp hs))).elim
  · cases hs : b.consumer.step? h (p.exit?.map fun exit => (exit, p.delivered)) b.link with
    | none => rfl
    | some next =>
      rw [← exit?_of_producer hp] at hs
      exact (hnone _ hc _ (.consume (Consumer.step?_eq_some_iff.mp hs))).elim

/-- A stop is requested in two steps. -/
def Act.weight : Act → Nat
  | .stop => 2
  | .finishStop | .keep | .setAside | .releaseKept | .panic _ | .publish _ => 1

def Act.weights : List Act → Nat
  | [] => 0
  | a :: rest => a.weight + weights rest

/-- The steps of a producer until he fetches again or ends. -/
def Producer.Place.rank : Producer.Place → Nat
  | starting | waiting => 4
  | pushing _ | retiring _ => 3
  | calling _ | marking _ => 2
  | fetching | releasing _ => 1
  | ended _ | aborted _ => 0

/-- The steps of a consumer until he takes a call or is gone. -/
def Consumer.Place.rank : Consumer.Place → Nat
  | handling _ _ acts => 9 + Act.weights acts
  | fresh | returning _ => 8
  | receiving => 7
  | awaiting => 6
  | joining _ | unwinding _ => 5
  | resolving _ => 4
  | leaving parts => parts.length + 1
  | gone => 0

/-- A producer enters a fetch, or comes closer to his next one or to his end. -/
theorem Producer.Step.entries_or_rank (hs : p.Step l p' l') :
    (p.place = .fetching ∧
        (Tally.ofTrace l'.trace).entries = (Tally.ofTrace l.trace).entries + 1) ∨
      ((Tally.ofTrace l'.trace).entries = (Tally.ofTrace l.trace).entries ∧
        p'.place.rank < p.place.rank) := by
  cases hs with
  | enterWaiting hp hf | enterAnswered hp hf => exact .inl ⟨hp, by simp⟩
  | @receive _ o _ hp hf =>
    exact .inr ⟨by simp, by cases o <;> simp [hp, Place.afterFetch, Place.rank]⟩
  | start hp | pushRefused hp hq | collectFailed hp hq | retire hp hf | mark hp | release hp =>
    exact .inr ⟨by simp, by simp [hp, Place.rank]⟩
  | push hp hq | collectHandled hp hq => exact .inr ⟨rfl, by simp [hp, Place.rank]⟩

theorem Consumer.act_rank (c : Consumer) (l : Link σ) (call : Call) (isHeld : Bool)
    (rest : List Act) (a : Act) :
    (c.act l call isHeld rest a).1.place.rank < (Place.handling call isHeld (a :: rest)).rank := by
  cases a with
  | panic x =>
    simp only [act, Place.rank]
    omega
  | _ => simp [act, Place.rank, Act.weights, Act.weight]

theorem Consumer.Step.calls_or_rank {exit? : Option (Exit × Nat)} (hs : c.Step h exit? l c' l') :
    l'.queue.calls.length < l.queue.calls.length ∨
      (l'.queue.calls = l.queue.calls ∧ c'.place.rank < c.place.rank) := by
  cases hs with
  | take hp hq =>
    obtain ⟨rest, hcalls, rfl⟩ := CallQueue.take?_eq_some hq
    exact .inl (by simp [hcalls])
  | act hp => exact .inr ⟨by rw [(c.act_aside l _ _ _ _).queue], hp ▸ c.act_rank l _ _ _ _⟩
  | @drop part _ hp =>
    cases part with
    | context | handler => exact .inr ⟨rfl, by simp [hp, Place.rank]⟩
    | receiver =>
      cases hcalls : l.queue.calls with
      | nil =>
        exact .inr ⟨by simp [dropPart, CallQueue.dropReceiver, hcalls], by simp [hp, Place.rank]⟩
      | cons call rest => exact .inl (by simp [dropPart, CallQueue.dropReceiver])
  | _ => exact .inr ⟨rfl, by simp_all [Place.rank, Act.weights]⟩

namespace Bridge

def entries (b : Bridge σ) : Nat := (Tally.ofTrace b.link.trace).entries

/-- What is left to be done by the two sides up to fetch number `n`. -/
def rank (n : Nat) (b : Bridge σ) : Nat × Nat × Nat × Nat :=
  (n - b.entries, b.producer.elim 0 (·.place.rank), b.link.queue.calls.length,
    b.consumer.place.rank)

theorem rank_step {n : Nat} {b b' : Bridge σ} {label : Label} (hl : label.isOfSides)
    (hs : b.step? h label = some b') (hn : b'.entries ≤ n) :
    Prod.Lex (· < ·) (Prod.Lex (· < ·) (Prod.Lex (· < ·) (· < ·))) (b'.rank n) (b.rank n) := by
  cases (step?_eq_some_iff.mp hs).2 with
  | produce hp hside =>
    rcases hside.entries_or_rank with ⟨-, heq⟩ | ⟨heq, hlt⟩
    · simp only [entries, heq] at hn
      have hlt : n - (b.entries + 1) < n - b.entries := by
        unfold entries
        omega
      simp only [rank, entries, heq]
      exact .left _ _ hlt
    · simp only [rank, entries, heq, hp]
      exact .right _ (.left _ _ hlt)
  | consume hside =>
    simp only [rank, entries, hside.frame.entries]
    rcases hside.calls_or_rank with hlt | ⟨heq, hlt⟩
    · exact .right _ (.right _ (.left _ _ hlt))
    · rw [heq]
      exact .right _ (.right _ (.right _ hlt))
  | raise | wake | publish | loseConsumer | letGo => simp [Label.isOfSides] at hl

theorem bounded_of_entries_le (n : Nat) (b : Bridge σ) :
    ∃ limit, ∀ labels b', (∀ label ∈ labels, label.isOfSides) → b.run? h labels = some b' →
      b'.entries ≤ n → labels.length ≤ limit := by
  -- each of the two first steps leads to a lower rank, hence to a bound by recursion
  have hnext (label : Label) (hl : label.isOfSides) :
      ∃ limit, ∀ m, b.step? h label = some m → ∀ labels b', (∀ l ∈ labels, l.isOfSides) →
        m.run? h labels = some b' → b'.entries ≤ n → labels.length ≤ limit := by
    cases hs : b.step? h label with
    | none => exact ⟨0, by simp⟩
    | some m =>
      by_cases hm : m.entries ≤ n
      · have hrank := rank_step hl hs hm
        obtain ⟨limit, hlimit⟩ := bounded_of_entries_le n m
        refine ⟨limit, fun m' hm' => ?_⟩
        cases hm'
        exact hlimit
      · refine ⟨0, fun m' hm' labels b' _ hr hn => ?_⟩
        cases hm'
        have hle : m.entries ≤ b'.entries :=
          Tally.entries_mono (trace_grows_of_run hr)
        omega
  obtain ⟨limit, hproduce⟩ := hnext .produce rfl
  obtain ⟨limit', hconsume⟩ := hnext .consume rfl
  refine ⟨max limit limit' + 1, fun labels b' ha hr hn => ?_⟩
  cases labels with
  | nil => simp
  | cons label rest =>
    obtain ⟨m, hs, hrest⟩ := Option.bind_eq_some_iff.mp hr
    have har := fun l hl => ha l (List.mem_cons_of_mem _ hl)
    have hlabel := ha label List.mem_cons_self
    cases label with
    | produce =>
      have hle := hproduce m hs rest b' har hrest hn
      simp only [List.length_cons]
      omega
    | consume =>
      have hle := hconsume m hs rest b' har hrest hn
      simp only [List.length_cons]
      omega
    | raise | wake | publish | loseConsumer | letGo => simp [Label.isOfSides] at hlabel
termination_by b.rank n
decreasing_by exact hrank

end Bridge

end Handoff
