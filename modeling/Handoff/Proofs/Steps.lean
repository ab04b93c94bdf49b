import Handoff.Bridge
import Handoff.Proofs.Tally

/-! The steps of both sides of a bridge as rules, one for each thing that can happen. -/
namespace Handoff

variable {σ : Type} [Feed σ]

namespace Producer

inductive Step (p : Producer) (l : Link σ) : Producer → Link σ → Prop where
  | start (hp : p.place = .starting) :
    Step p l { p with place := .fetching } (l.note [.running])
  | enterWaiting {f rs} (hp : p.place = .fetching) (hf : Feed.enter l.feed = (f, none, rs)) :
    Step p l { p with place := .waiting } (l.fed f (.fetching :: Event.releasing rs))
  | enterAnswered {f o rs} (hp : p.place = .fetching)
      (hf : Feed.enter l.feed = (f, some o, rs)) :
    Step p l { p with place := .afterFetch o }
      ((l.fed f (.fetching :: Event.releasing rs)).note [.fetched o])
  | receive {f o rs} (hp : p.place = .waiting) (hf : Feed.receive? l.feed = some (f, o, rs)) :
    Step p l { p with place := .afterFetch o } (l.fed f (Event.releasing rs ++ [.fetched o]))
  | pushRefused {r} (hp : p.place = .pushing r) (hq : l.queue.push? r = none) :
    Step p l { p with place := .aborted .consumerGone }
      (l.note [.released r, .dispatchFailed .consumerGone])
  | push {r ticket q} (hp : p.place = .pushing r) (hq : l.queue.push? r = some (ticket, q)) :
    Step p l { p with place := .calling ticket } { l with queue := q }
  | collectHandled {ticket q} (hp : p.place = .calling ticket)
      (hq : l.queue.collect? ticket = some (.handled, q)) :
    Step p l { place := .fetching, delivered := p.delivered + 1 } { l with queue := q }
  | collectFailed {ticket e q} (hp : p.place = .calling ticket)
      (hq : l.queue.collect? ticket = some (.failed e, q)) :
    Step p l { p with place := .aborted e } ({ l with queue := q }.note [.dispatchFailed e])
  | retire {exit f rs} (hp : p.place = .retiring exit) (hf : Feed.retire l.feed = (f, rs)) :
    Step p l
      { p with place := .marking (exit.orPanic (exit.raised? (Feed.retirePanic? l.feed))) }
      (l.fed f (Event.releasing rs ++
        [.fetcherDropped l.liveness (exit.raised? (Feed.retirePanic? l.feed))]))
  | mark {exit} (hp : p.place = .marking exit) :
    Step p l { p with place := .releasing exit }
      ({ l with liveness := .terminated }.note [.terminated])
  | release {exit} (hp : p.place = .releasing exit) :
    Step p l { p with place := .ended exit }
      { l.note (exit.farewell p.delivered ++ [.senderDropped]) with queue := l.queue.dropSender }

theorem step?_eq_some_iff {p p' : Producer} {l l' : Link σ} :
    p.step? l = some (p', l') ↔ Step p l p' l' := by
  constructor
  · intro h
    cases hp : p.place with
    | starting => simp only [step?, hp] at h; cases h; exact .start hp
    | fetching =>
      rcases hf : Feed.enter l.feed with ⟨f, answer?, rs⟩
      cases answer? with
      | none => simp only [step?, hp, hf] at h; cases h; exact .enterWaiting hp hf
      | some o => simp only [step?, hp, hf] at h; cases h; exact .enterAnswered hp hf
    | waiting =>
      cases hf : Feed.receive? l.feed with
      | none => simp [step?, hp, hf] at h
      | some answer => simp only [step?, hp, hf] at h; cases h; exact .receive hp hf
    | pushing r =>
      cases hq : l.queue.push? r with
      | none => simp only [step?, hp, hq] at h; cases h; exact .pushRefused hp hq
      | some pushed => simp only [step?, hp, hq] at h; cases h; exact .push hp hq
    | calling ticket =>
      rcases hq : l.queue.collect? ticket with _ | ⟨_ | e, q⟩
      · simp [step?, hp, hq] at h
      · simp only [step?, hp, hq] at h; cases h; exact .collectHandled hp hq
      · simp only [step?, hp, hq] at h; cases h; exact .collectFailed hp hq
    | retiring exit => simp only [step?, hp] at h; cases h; exact .retire hp rfl
    | marking exit => simp only [step?, hp] at h; cases h; exact .mark hp
    | releasing exit => simp only [step?, hp] at h; cases h; exact .release hp
    | ended exit => simp [step?, hp] at h
    | aborted e => simp [step?, hp] at h
  · rintro (hp | ⟨hp, hf⟩ | ⟨hp, hf⟩ | ⟨hp, hf⟩ | ⟨hp, hq⟩ | ⟨hp, hq⟩ | ⟨hp, hq⟩ | ⟨hp, hq⟩ |
      ⟨hp, hf⟩ | hp | hp) <;> simp_all [step?]

end Producer

namespace Consumer

inductive Step (h : Handler) (exit? : Option (Exit × Nat)) (c : Consumer) (l : Link σ) :
    Consumer → Link σ → Prop where
  | begin (hp : c.place = .fresh) : Step h exit? c l { c with place := .receiving } l
  | take {call q} (hp : c.place = .receiving) (hq : l.queue.take? = some (call, q)) :
    Step h exit? c l
      { c with
        place := .handling call true (h c.invocations call.record)
        invocations := c.invocations + 1 }
      ({ l with queue := q }.note [.handling call.record])
  | drained (hp : c.place = .receiving) (hq : l.queue.take? = none)
      (hs : l.queue.hasSender = false) : Step h exit? c l { c with place := .awaiting } l
  | act {call isHeld a rest} (hp : c.place = .handling call isHeld (a :: rest)) :
    Step h exit? c l (c.act l call isHeld rest a).1 (c.act l call isHeld rest a).2
  | finish {call isHeld} (hp : c.place = .handling call isHeld []) :
    Step h exit? c l { c with place := .returning call.ticket }
      (l.note (.handled call.record :: leftover call isHeld))
  | answer {ticket} (hp : c.place = .returning ticket) :
    Step h exit? c l { c with place := .receiving }
      { l with queue := l.queue.answer ticket .handled }
  | unwind {ticket} (hp : c.place = .unwinding ticket) :
    Step h exit? c l { c with place := .leaving [.context, .handler, .receiver] }
      { l with queue := l.queue.answer ticket (.failed .handlerAborted) }
  | join {g} (hp : c.place = .awaiting) (hc : c.context = .sent g) :
    Step h exit? c l { c with place := .joining g, context := .used } l
  | giveUp (hp : c.place = .awaiting) (hc : c.context ∈ [.lost, .refused, .used]) :
    Step h exit? c l { c with place := .leaving [.handler, .receiver] } l
  | judge {g exit n} (hp : c.place = .joining g) (he : exit? = some (exit, n)) :
    Step h exit? c l { c with place := .resolving (.ofExit n g exit) }
      (l.note [.joined (Completion.ofExit n g exit).isOk])
  | resolve {v} (hp : c.place = .resolving v) :
    Step h exit? c l
      { c with place := .leaving [.handler, .receiver], signal := c.signal.send v } l
  | drop {part rest} (hp : c.place = .leaving (part :: rest)) :
    Step h exit? c l { (c.dropPart l part).1 with place := .leaving rest } (c.dropPart l part).2
  | leave (hp : c.place = .leaving []) : Step h exit? c l { c with place := .gone } l

theorem step?_eq_some_iff {h : Handler} {exit? : Option (Exit × Nat)} {c c' : Consumer}
    {l l' : Link σ} : c.step? h exit? l = some (c', l') ↔ Step h exit? c l c' l' := by
  constructor
  · intro hs
    cases hp : c.place with
    | fresh => simp only [step?, hp] at hs; cases hs; exact .begin hp
    | receiving =>
      cases hq : l.queue.take? with
      | some taken => simp only [step?, hp, hq] at hs; cases hs; exact .take hp hq
      | none =>
        cases hn : l.queue.hasSender with
        | true => simp [step?, hp, hq, hn] at hs
        | false =>
          simp [step?, hp, hq, hn] at hs
          rcases hs with ⟨rfl, rfl⟩
          exact .drained hp hq hn
    | handling call isHeld acts =>
      cases acts with
      | nil => simp only [step?, hp] at hs; cases hs; exact .finish hp
      | cons a rest =>
        simp only [step?, hp, Option.some.injEq, Prod.ext_iff] at hs
        rcases hs with ⟨rfl, rfl⟩
        exact .act hp
    | returning ticket => simp only [step?, hp] at hs; cases hs; exact .answer hp
    | unwinding ticket => simp only [step?, hp] at hs; cases hs; exact .unwind hp
    | awaiting =>
      simp only [step?, hp] at hs
      split at hs
      next g hc => cases hs; exact .join hp hc
      next => cases hs
      all_goals next hc => cases hs; exact .giveUp hp (by simp [hc])
    | joining g =>
      rcases exit? with _ | ⟨exit, n⟩
      · simp [step?, hp] at hs
      · simp only [step?, hp] at hs; cases hs; exact .judge hp rfl
    | resolving v => simp only [step?, hp] at hs; cases hs; exact .resolve hp
    | leaving parts =>
      cases parts with
      | nil => simp only [step?, hp] at hs; cases hs; exact .leave hp
      | cons part rest => simp only [step?, hp] at hs; cases hs; exact .drop hp
    | gone => simp [step?, hp] at hs
  · rintro (hp | ⟨hp, hq⟩ | ⟨hp, hq, hn⟩ | hp | hp | hp | hp | ⟨hp, hc⟩ | ⟨hp, hc⟩ | ⟨hp, he⟩ |
      hp | hp | hp) <;> simp_all [step?]
    rcases hc with hc | hc | hc <;> simp [hc]

/-- A task is lost before it begins or where it waits, and nothing but its place changes. -/
theorem lose?_eq_some {c c' : Consumer} (hl : c.lose? = some c') :
    (c.place = .fresh ∨ c.place = .receiving ∨ c.place = .awaiting) ∧
      ∃ parts, c' = { c with place := .leaving parts } := by
  unfold lose? at hl
  split at hl
  next hp => cases hl; exact ⟨.inl hp, _, rfl⟩
  next hp => cases hl; exact ⟨.inr (.inl hp), _, rfl⟩
  next hp => cases hl; exact ⟨.inr (.inr hp), _, rfl⟩
  next => cases hl

@[simp] theorem foldl_add_leftover (y : Tally) (call : Call) (isHeld : Bool) :
    (leftover call isHeld).foldl Tally.add y = y := by
  cases isHeld <;> rfl

theorem act_aside (c : Consumer) (l : Link σ) (call : Call) (isHeld : Bool) (rest : List Act)
    (a : Act) : l.Aside (c.act l call isHeld rest a).2 := by
  cases a with
  | stop => exact l.aside_raise
  | finishStop => exact l.aside_wake
  | keep | setAside => exact l.aside_refl
  | releaseKept => exact l.aside_note Event.isQuiet_of_mem_releasing
  | panic p => exact l.aside_note (by cases isHeld <;> simp [leftover])
  | publish x => exact l.aside_publish x

/-- The handler goes on with the same record, or it has panicked. -/
theorem act_place (c : Consumer) (l : Link σ) (call : Call) (isHeld : Bool) (rest : List Act)
    (a : Act) :
    (∃ isHeld' acts, (c.act l call isHeld rest a).1.place = .handling call isHeld' acts) ∨
      (c.act l call isHeld rest a).1.place = .unwinding call.ticket := by
  cases a <;> simp [act]

theorem act_frame (c : Consumer) (l : Link σ) (call : Call) (isHeld : Bool) (rest : List Act)
    (a : Act) :
    (c.act l call isHeld rest a).1.invocations = c.invocations ∧
      (c.act l call isHeld rest a).1.context = c.context ∧
      (c.act l call isHeld rest a).1.signal = c.signal := by
  cases a <;> exact ⟨rfl, rfl, rfl⟩

/-- Destroying a context reaches its slot, and what the consumer tells, and nothing else of him. -/
theorem dropContext_eq (c : Consumer) :
    ∃ context signal, c.dropContext = { c with context := context, signal := signal } := by
  unfold dropContext
  split <;> exact ⟨_, _, rfl⟩

end Consumer

namespace Bridge

inductive Step (h : Handler) (b : Bridge σ) : Label → Bridge σ → Prop where
  | produce {p p' l'} (hp : b.producer = some p) (hs : p.Step b.link p' l') :
    Step h b .produce { b with producer := some p', link := l' }
  | consume {c' l'} (hs : b.consumer.Step h b.exit? b.link c' l') :
    Step h b .consume { b with consumer := c', link := l' }
  | raise (hp : b.producer.isSome) :
    Step h b .raise { b with link := b.link.raise, wakes := b.wakes + 1 }
  | wake (hw : 0 < b.wakes) : Step h b .wake { b with link := b.link.wake, wakes := b.wakes - 1 }
  | publish (x) : Step h b (.publish x) { b with link := b.link.publish x }
  | loseConsumer {c'} (hc : b.consumer.lose? = some c') :
    Step h b .loseConsumer { b with consumer := c' }
  | letGo :
    Step h b .letGo { b with consumer := { b.consumer with signal := b.consumer.signal.letGo } }

/-- The rules hold in every process that lives. -/
theorem step?_eq_some_iff {h : Handler} {b b' : Bridge σ} {label : Label} :
    b.step? h label = some b' ↔ b.abort? = none ∧ Step h b label b' := by
  cases ha : b.abort? with
  | some e => simp [step?, ha]
  | none =>
    simp only [true_and]
    constructor
    · intro hs
      cases label with
      | produce =>
        simp only [step?, ha, produce?, Option.isSome_none, Bool.false_eq_true, if_false] at hs
        obtain ⟨p, hp, hs⟩ := Option.bind_eq_some_iff.mp hs
        obtain ⟨next, hn, hb⟩ := Option.bind_eq_some_iff.mp hs
        cases hb
        exact .produce hp (Producer.step?_eq_some_iff.mp hn)
      | consume =>
        simp only [step?, ha, consume?, Option.isSome_none, Bool.false_eq_true, if_false] at hs
        obtain ⟨next, hn, hb⟩ := Option.bind_eq_some_iff.mp hs
        cases hb
        exact .consume (Consumer.step?_eq_some_iff.mp hn)
      | raise =>
        simp only [step?, ha, Option.isSome_none, Bool.false_eq_true, if_false,
          Option.ite_none_right_eq_some, Option.some.injEq] at hs
        obtain ⟨hp, rfl⟩ := hs
        exact .raise hp
      | wake =>
        simp only [step?, ha, Option.isSome_none, Bool.false_eq_true, if_false,
          Option.ite_none_right_eq_some, Option.some.injEq] at hs
        obtain ⟨hw, rfl⟩ := hs
        exact .wake hw
      | publish x =>
        simp only [step?, ha, Option.isSome_none, Bool.false_eq_true, if_false] at hs
        cases hs
        exact .publish x
      | loseConsumer =>
        simp only [step?, ha, Option.isSome_none, Bool.false_eq_true, if_false,
          Option.map_eq_some_iff] at hs
        obtain ⟨c', hc, rfl⟩ := hs
        exact .loseConsumer hc
      | letGo =>
        simp only [step?, ha, Option.isSome_none, Bool.false_eq_true, if_false] at hs
        cases hs
        exact .letGo
    · intro hs
      cases hs with
      | produce hp hs => simp [step?, ha, produce?, hp, Producer.step?_eq_some_iff.mpr hs]
      | consume hs => simp [step?, ha, consume?, Consumer.step?_eq_some_iff.mpr hs]
      | raise hp => simp [step?, ha, hp]
      | wake hw => simp [step?, ha, hw]
      | publish x => simp [step?, ha]
      | loseConsumer hc => simp [step?, ha, hc]
      | letGo => simp [step?, ha]

end Bridge

end Handoff
