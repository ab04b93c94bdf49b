import Handoff.Consumer.Service
import Handoff.Proofs.Answering
import Handoff.Proofs.Teardown

/-! A consumer serves its queue as anyone may who has taken calls out of it, so that its callers,
too, learn what happened to their records. -/
namespace Handoff.Exchange

variable {m : Exchange}

theorem step?_hand {h : Hand} (hh : m.hands = [h]) (deed : Hand.Deed) {stage? : Option Stage}
    {answer? : Option Answer} {es : List Note} (hd : h.step? deed = some (stage?, answer?, es)) :
    m.step? (.hand h deed) = some
      { m with
        queue := answer?.elim m.queue (m.queue.answer h.call.ticket)
        hands := (stage?.map (Hand.mk h.call)).toList
        notes := m.notes ++ es } := by
  have hmem : h ∈ m.hands := by
    rw [hh]
    exact List.mem_singleton_self h
  rw [step?, if_pos hmem, hd, Option.map_some, hh]
  simp

/-- The records of calls that are dropped are released in the order of their pushes, and each call
is answered before the record of the next one is released. -/
theorem run?_falls (calls : List Call)
    (hh : m.hands = calls.map fun c => ⟨c, .falling Call.fields⟩) :
    ∃ labels, m.run? labels = some
      { m with
        queue := { m.queue with
          answers := m.queue.answers ++ calls.map fun c => (c.ticket, .failed .handlerAborted) }
        hands := []
        notes := m.notes ++ calls.map fun c => .released c.record } := by
  induction calls generalizing m with
  | nil =>
    have hnil : m.hands = [] := hh
    refine ⟨[], ?_⟩
    rw [List.map_nil, List.map_nil, List.append_nil, List.append_nil, ← hnil]
    rfl
  | cons c rest ih =>
    let first : Hand := ⟨c, .falling Call.fields⟩
    let second : Hand := ⟨c, .falling [.done]⟩
    let others : List Hand := rest.map fun c => ⟨c, .falling Call.fields⟩
    have hrecord : m.step? (.hand first .fall) = some
        { m with hands := others ++ [second], notes := m.notes ++ [.released c.record] } := by
      have hmem : first ∈ m.hands := by
        rw [hh]
        exact List.mem_cons_self
      have herase : m.hands.erase first = others := by
        rw [hh]
        exact List.erase_cons_head ..
      rw [step?, if_pos hmem, herase]
      rfl
    -- the fallen call is behind all those that have not begun to fall
    have hdone :
        step? { m with hands := others ++ [second], notes := m.notes ++ [.released c.record] }
          (.hand second .fall) = some
          { m with
            queue := m.queue.answer c.ticket (.failed .handlerAborted)
            hands := others
            notes := m.notes ++ [.released c.record] } := by
      have hnot : second ∉ others := fun hmem => by
        obtain ⟨d, -, heq⟩ := List.mem_map.mp hmem
        simp [second, Call.fields] at heq
      have herase : (others ++ [second]).erase second = others := by
        rw [List.erase_append_right _ hnot, List.erase_cons_head, List.append_nil]
      rw [step?, if_pos (List.mem_append_right _ (List.mem_singleton_self _)), herase]
      simp [Hand.step?, second]
    obtain ⟨labels, hr⟩ := ih (m := { m with
      queue := m.queue.answer c.ticket (.failed .handlerAborted)
      hands := others
      notes := m.notes ++ [.released c.record] }) rfl
    refine ⟨.hand first .fall :: .hand second .fall :: labels, ?_⟩
    rw [run?, hrecord, Option.bind_some, run?, hdone, Option.bind_some, hr]
    simp [CallQueue.answer, List.append_assoc]

/-- Where no call was taken, the drop of the receiver with all that follows from it is what one step
of the queue does. -/
theorem run?_dropReceiver (hr : m.queue.hasReceiver = true) (hh : m.hands = []) :
    ∃ labels, m.run? labels = some
      { m with
        queue := m.queue.dropReceiver.1
        notes := m.notes ++ (.receiverDropped :: m.queue.calls.map fun c => .discarded c.record) ++
          m.queue.dropReceiver.2.map .released } := by
  have hdrop : m.step? .dropReceiver = some
      { m with
        queue := { m.queue with hasReceiver := false, calls := [] }
        hands := m.queue.calls.map fun c => ⟨c, .falling Call.fields⟩
        notes :=
          m.notes ++ (.receiverDropped :: m.queue.calls.map fun c => .discarded c.record) } := by
    rw [step?, if_pos hr, hh, List.nil_append]
  obtain ⟨labels, hfalls⟩ := run?_falls (m := { m with
    queue := { m.queue with hasReceiver := false, calls := [] }
    hands := m.queue.calls.map fun c => ⟨c, .falling Call.fields⟩
    notes := m.notes ++ (.receiverDropped :: m.queue.calls.map fun c => .discarded c.record) })
    m.queue.calls rfl
  refine ⟨.dropReceiver :: labels, ?_⟩
  rw [run?, hdrop, Option.bind_some, hfalls]
  simp [CallQueue.dropReceiver, hh]

end Handoff.Exchange

namespace Handoff.Consumer

@[simp] def Place.hasReceiver : Place → Bool
  | leaving parts => parts.contains .receiver
  | gone => false
  | fresh | receiving | handling .. | returning _ | unwinding _ | awaiting | joining _
  | resolving _ => true

/-- Whoever leaves drops what he has in one order. -/
structure Attached (c : Consumer) (q : CallQueue) : Prop where
  receiver : q.hasReceiver = c.place.hasReceiver
  parts : ∀ parts, c.place = .leaving parts → parts <:+ [.context, .handler, .receiver]

/-- The call that a consumer has taken and not answered yet. -/
def Place.Holds (place : Place) (hs : List Exchange.Hand) : Prop :=
  match place with
  | .handling call _ _ => hs = [⟨call, .handling⟩]
  | .returning ticket => ∃ r, hs = [⟨⟨ticket, r⟩, .returning⟩]
  | .unwinding ticket => ∃ r, hs = [⟨⟨ticket, r⟩, .falling [.done]⟩]
  | .fresh | .receiving | .awaiting | .joining _ | .resolving _ | .leaving _ | .gone => hs = []

theorem getD_sendContext? (c : Consumer) (g : UInt32) :
    ∃ context signal,
      (c.sendContext? g).getD c = { c with context := context, signal := signal } := by
  unfold sendContext?
  split <;> exact ⟨_, _, rfl⟩

theorem getD_loseContext? (c : Consumer) :
    ∃ context, c.loseContext?.getD c = { c with context := context } := by
  unfold loseContext?
  split <;> exact ⟨_, rfl⟩

theorem part_cases {part : Part} {rest : List Part}
    (hp : part :: rest <:+ [.context, .handler, .receiver]) :
    (part = .context ∧ rest = [.handler, .receiver]) ∨ (part = .handler ∧ rest = [.receiver]) ∨
      (part = .receiver ∧ rest = []) := by
  simpa [List.suffix_cons_iff] using hp

variable {σ : Type} [Feed σ] {h : Handler} {exit? : Option (Exit × Nat)} {c c' : Consumer}
  {l l' : Link σ}

theorem Attached.consume (hi : c.Attached l.queue) (hs : c.Step h exit? l c' l') :
    c'.Attached l'.queue := by
  have hr := hi.receiver
  cases hs with
  | begin hp | drained hp | finish hp | answer hp | join hp | judge hp =>
    rw [hp] at hr
    exact ⟨hr, by simp⟩
  | take hp hq =>
    obtain ⟨rest, -, rfl⟩ := CallQueue.take?_eq_some hq
    rw [hp] at hr
    exact ⟨hr, by simp⟩
  | @act call isHeld a rest hp =>
    rw [hp] at hr
    rw [(c.act_aside l call isHeld rest a).queue]
    rcases c.act_place l call isHeld rest a with ⟨isHeld', acts, hp'⟩ | hp'
    · exact ⟨by rw [hp']; exact hr, by simp [hp']⟩
    · exact ⟨by rw [hp']; exact hr, by simp [hp']⟩
  | unwind hp =>
    rw [hp] at hr
    refine ⟨hr, fun parts hparts => ?_⟩
    cases hparts
    exact List.suffix_rfl
  | giveUp hp | resolve hp =>
    rw [hp] at hr
    refine ⟨hr, fun parts hparts => ?_⟩
    cases hparts
    exact List.suffix_cons _ _
  | @drop part rest hp =>
    have hparts := hi.parts _ hp
    rw [hp] at hr
    refine ⟨?_, fun parts hrest => ?_⟩
    · rcases part_cases hparts with ⟨rfl, rfl⟩ | ⟨rfl, rfl⟩ | ⟨rfl, rfl⟩
      · exact hr
      · exact hr
      · rfl
    · cases hrest
      exact (List.suffix_cons _ _).trans hparts
  | leave hp =>
    rw [hp] at hr
    exact ⟨hr, by simp⟩

end Handoff.Consumer

namespace Handoff.Service

variable {σ : Type} {h : Handler} {m m' : Service σ} {e : Exchange} {label : Label}

def next (m : Service σ) (id : UInt32) : Record := ⟨id, m.callers.length⟩

inductive Step [Feed σ] (h : Handler) (m : Service σ) : Label → Service σ → Prop where
  | accept {id} (hs : m.link.queue.hasSender = true) (hr : m.link.queue.hasReceiver = true) :
    Step h m (.call id)
      { m with
        link := { m.link with
          queue := { m.link.queue with
            issued := m.link.queue.issued + 1
            calls := m.link.queue.calls ++ [⟨m.link.queue.issued, m.next id⟩] } }
        callers := m.callers ++ [⟨m.next id, .blocked m.link.queue.issued⟩] }
  | refuse {id} (hs : m.link.queue.hasSender = true) (hr : m.link.queue.hasReceiver = false) :
    Step h m (.call id) { m with callers := m.callers ++ [⟨m.next id, .rejected Call.fields⟩] }
  | goOn {i c c' q rs} (hc : m.callers[i]? = some c)
      (hs : c.step? m.link.queue = some (c', q, rs)) :
    Step h m (.caller i)
      { m with
        link := { m.link with queue := q }.note (Event.releasing rs)
        callers := m.callers.set i c' }
  | release (hs : m.link.queue.hasSender = true) (hc : ∀ c ∈ m.callers, c.answer?.isSome) :
    Step h m .release { m with link := { m.link with queue := m.link.queue.dropSender } }
  | send {g} (ho : m.offer = .held) :
    Step h m (.sendContext g)
      { m with consumer := (m.consumer.sendContext? g).getD m.consumer, offer := .sent g }
  | withdraw (ho : m.offer = .held) :
    Step h m .loseContext
      { m with consumer := m.consumer.loseContext?.getD m.consumer, offer := .withdrawn }
  | endThread {exit n} (he : m.exit? = none) :
    Step h m (.endThread exit n) { m with exit? := some (exit, n) }
  | consume {c' l'} (hs : m.consumer.Step h m.exit? m.link c' l') :
    Step h m .consume { m with consumer := c', link := l' }

theorem step_of_step? [Feed σ] (hs : m.step? h label = some m') : Step h m label m' := by
  cases label with
  | call id =>
    simp only [step?, Option.ite_none_right_eq_some] at hs
    obtain ⟨hsender, heq⟩ := hs
    cases hr : m.link.queue.hasReceiver with
    | true =>
      rw [Caller.enter_of_hasReceiver hr] at heq
      cases heq
      exact .accept hsender hr
    | false =>
      rw [Caller.enter_of_not_hasReceiver hr] at heq
      cases heq
      exact .refuse hsender hr
  | caller i =>
    obtain ⟨c, hc, hs⟩ := Option.bind_eq_some_iff.mp hs
    obtain ⟨⟨c', q, rs⟩, hstep, hs⟩ := Option.bind_eq_some_iff.mp hs
    cases hs
    exact .goOn hc hstep
  | release =>
    simp only [step?, Option.ite_none_right_eq_some, Option.some.injEq] at hs
    obtain ⟨⟨hsender, hc⟩, rfl⟩ := hs
    exact .release hsender hc
  | sendContext g =>
    simp only [step?, Option.ite_none_right_eq_some, Option.some.injEq] at hs
    obtain ⟨ho, rfl⟩ := hs
    exact .send ho
  | loseContext =>
    simp only [step?, Option.ite_none_right_eq_some, Option.some.injEq] at hs
    obtain ⟨ho, rfl⟩ := hs
    exact .withdraw ho
  | endThread exit n =>
    simp only [step?, Option.ite_none_right_eq_some, Option.some.injEq] at hs
    obtain ⟨he, rfl⟩ := hs
    exact .endThread he
  | consume =>
    obtain ⟨⟨c', l'⟩, hstep, rfl⟩ := Option.map_eq_some_iff.mp hs
    exact .consume (Consumer.step?_eq_some_iff.mp hstep)

/-- What the queue of a service looks like to those who do not know who serves it. -/
structure Mirrors (m : Service σ) (e : Exchange) : Prop where
  queue : e.queue = m.link.queue
  callers : e.callers = m.callers
  hands : m.consumer.place.Holds e.hands
  handling : ∀ r, .handling r ∈ e.notes ↔ r ∈ (Tally.ofTrace m.link.trace).passed
  handled : ∀ r, .handled r ∈ e.notes ↔ r ∈ (Tally.ofTrace m.link.trace).returned
  attached : m.consumer.Attached m.link.queue

variable [Feed σ]

namespace Mirrors

/-- Whatever the consumer does is something that anyone may do who has taken a call. -/
theorem consume (hi : m.Mirrors e) {c' : Consumer} {l' : Link σ}
    (hs : m.consumer.Step h m.exit? m.link c' l') :
    ∃ labels e', e.run? labels = some e' ∧ Mirrors { m with consumer := c', link := l' } e' := by
  obtain ⟨hqueue, hcallers, hhands, hhandling, hhandled, hattached⟩ := hi
  have hattached' := hattached.consume hs
  -- most steps of a consumer are none of the queue's
  have hnothing (hq : l'.queue = m.link.queue)
      (ht : Tally.ofTrace l'.trace = Tally.ofTrace m.link.trace) (hh : c'.place.Holds e.hands) :
      ∃ labels e', e.run? labels = some e' ∧ Mirrors { m with consumer := c', link := l' } e' :=
    ⟨[], e, rfl, hqueue.trans hq.symm, hcallers, hh, by rw [ht]; exact hhandling,
      by rw [ht]; exact hhandled, hattached'⟩
  cases hs with
  | begin hp | drained hp | join hp | giveUp hp | resolve hp | leave hp =>
    rw [hp] at hhands
    exact hnothing rfl rfl hhands
  | judge hp =>
    rw [hp] at hhands
    exact hnothing rfl (by simp) hhands
  | @take call q hp hq =>
    rw [hp] at hhands
    have hreceiver : e.queue.hasReceiver = true := by
      rw [hqueue, hattached.receiver, hp]
      rfl
    -- one step here, two deeds there: a call is received and then invoked
    have hreceive : e.step? .receive = some { e with queue := q, hands := [⟨call, .taken⟩] } := by
      rw [Exchange.step?, if_pos hreceiver, hqueue, hq, hhands]
      rfl
    have hinvoke := Exchange.step?_hand (m := { e with queue := q, hands := [⟨call, .taken⟩] })
      rfl .invoke rfl
    refine ⟨_, _, Exchange.run?_append (Exchange.run?_singleton hreceive)
      (Exchange.run?_singleton hinvoke), rfl, hcallers, rfl, fun r => ?_, fun r => ?_, hattached'⟩
    · simp [hhandling]
    · simp [hhandled]
  | @act call isHeld a rest hp =>
    have haside := m.consumer.act_aside m.link call isHeld rest a
    rw [hp] at hhands
    cases a with
    | panic p =>
      have hpanic := Exchange.step?_hand hhands (.panic !isHeld) rfl
      refine ⟨_, _, Exchange.run?_singleton hpanic, hqueue, hcallers, ⟨call.record, rfl⟩,
        fun r => ?_, fun r => ?_, hattached'⟩
      · rw [haside.tally, ← hhandling]
        cases isHeld <;> simp [Exchange.Hand.leftover]
      · rw [haside.tally, ← hhandled]
        cases isHeld <;> simp [Exchange.Hand.leftover]
    | _ => exact hnothing haside.queue haside.tally hhands
  | @finish call isHeld hp =>
    rw [hp] at hhands
    have hfinish := Exchange.step?_hand hhands (.finish !isHeld) rfl
    refine ⟨_, _, Exchange.run?_singleton hfinish, hqueue, hcallers, ⟨call.record, rfl⟩,
      fun r => ?_, fun r => ?_, hattached'⟩
    · cases isHeld <;> simp [Exchange.Hand.leftover, hhandling]
    · cases isHeld <;> simp [Exchange.Hand.leftover, hhandled]
  | @answer ticket hp =>
    rw [hp] at hhands
    obtain ⟨r, hhands⟩ := hhands
    have hanswer := Exchange.step?_hand hhands .answer rfl
    refine ⟨_, _, Exchange.run?_singleton hanswer, ?_, hcallers, rfl, ?_, ?_, hattached'⟩
    · rw [← hqueue]
      rfl
    · simpa using hhandling
    · simpa using hhandled
  | @unwind ticket hp =>
    rw [hp] at hhands
    obtain ⟨r, hhands⟩ := hhands
    have hfall := Exchange.step?_hand hhands .fall rfl
    refine ⟨_, _, Exchange.run?_singleton hfall, ?_, hcallers, rfl, ?_, ?_, hattached'⟩
    · rw [← hqueue]
      rfl
    · simpa using hhandling
    · simpa using hhandled
  | @drop part rest hp =>
    rw [hp] at hhands
    cases part with
    | context => exact hnothing rfl rfl hhands
    | handler => exact hnothing rfl (by simp [Consumer.dropPart]) hhands
    | receiver =>
      have hreceiver : e.queue.hasReceiver = true := by
        rw [hqueue, hattached.receiver, hp]
        rfl
      obtain ⟨labels, hr⟩ := Exchange.run?_dropReceiver hreceiver hhands
      refine ⟨labels, _, hr, ?_, hcallers, hhands, fun r => ?_, fun r => ?_, hattached'⟩
      · rw [hqueue]
        rfl
      · simp [Consumer.dropPart, hhandling]
      · simp [Consumer.dropPart, hhandled]

omit [Feed σ] in
theorem caller (hi : m.Mirrors e) {i : Nat} {c c' : Caller} {q : CallQueue} {rs : List Record}
    (hc : m.callers[i]? = some c) (hs : c.step? m.link.queue = some (c', q, rs)) :
    ∃ labels e', e.run? labels = some e' ∧ Mirrors
      { m with
        link := { m.link with queue := q }.note (Event.releasing rs)
        callers := m.callers.set i c' } e' := by
  obtain ⟨hqueue, hcallers, hhands, hhandling, hhandled, hattached⟩ := hi
  obtain ⟨-, answers, rfl⟩ := Caller.step?_frame hs
  have hstep : e.step? (.caller i) = some
      { e with
        queue := { m.link.queue with answers := answers }
        callers := m.callers.set i c'
        notes :=
          e.notes ++ (rs.map .released ++ (c'.answer?.map (.returned c.record)).toList) } := by
    simp [Exchange.step?, hcallers, hqueue, hc, hs]
  refine ⟨_, _, Exchange.run?_singleton hstep, rfl, rfl, hhands, fun r => ?_, fun r => ?_,
    hattached.receiver, hattached.parts⟩
  · cases c'.answer? <;> simp [hhandling]
  · cases c'.answer? <;> simp [hhandled]

theorem step (hi : m.Mirrors e) (hs : Step h m label m') :
    ∃ labels e', e.run? labels = some e' ∧ m'.Mirrors e' := by
  obtain ⟨hqueue, hcallers, hhands, hhandling, hhandled, hattached⟩ := hi
  cases hs with
  | @accept id hsender hr =>
    have hstep : e.step? (.call id) = some
        { e with
          queue := { m.link.queue with
            issued := m.link.queue.issued + 1
            calls := m.link.queue.calls ++ [⟨m.link.queue.issued, m.next id⟩] }
          callers := m.callers ++ [⟨m.next id, .blocked m.link.queue.issued⟩]
          notes := e.notes ++ [.called (m.next id)] } := by
      simp only [Exchange.step?, hqueue, if_pos hsender, Caller.enter_of_hasReceiver hr, hcallers,
        next]
    refine ⟨_, _, Exchange.run?_singleton hstep, rfl, rfl, hhands, fun r => ?_, fun r => ?_,
      hattached.receiver, hattached.parts⟩
    · simpa using hhandling r
    · simpa using hhandled r
  | @refuse id hsender hr =>
    have hstep : e.step? (.call id) = some
        { e with
          callers := m.callers ++ [⟨m.next id, .rejected Call.fields⟩]
          notes := e.notes ++ [.called (m.next id)] } := by
      simp only [Exchange.step?, hqueue, if_pos hsender, Caller.enter_of_not_hasReceiver hr,
        hcallers, next]
    refine ⟨_, _, Exchange.run?_singleton hstep, hqueue, rfl, hhands, fun r => ?_, fun r => ?_,
      hattached⟩
    · simpa using hhandling r
    · simpa using hhandled r
  | goOn hc hs => exact caller ⟨hqueue, hcallers, hhands, hhandling, hhandled, hattached⟩ hc hs
  | release hsender hc =>
    have hstep : e.step? .release = some { e with queue := m.link.queue.dropSender } := by
      rw [Exchange.step?, hqueue, hcallers, if_pos ⟨hsender, hc⟩]
    exact ⟨_, _, Exchange.run?_singleton hstep, rfl, hcallers, hhands, hhandling, hhandled,
      hattached.receiver, hattached.parts⟩
  | @send g ho =>
    obtain ⟨context, signal, heq⟩ := m.consumer.getD_sendContext? g
    rw [heq]
    exact ⟨[], e, rfl, hqueue, hcallers, hhands, hhandling, hhandled, hattached.receiver,
      hattached.parts⟩
  | withdraw ho =>
    obtain ⟨context, heq⟩ := m.consumer.getD_loseContext?
    rw [heq]
    exact ⟨[], e, rfl, hqueue, hcallers, hhands, hhandling, hhandled, hattached.receiver,
      hattached.parts⟩
  | endThread he => exact ⟨[], e, rfl, hqueue, hcallers, hhands, hhandling, hhandled, hattached⟩
  | consume hs => exact consume ⟨hqueue, hcallers, hhands, hhandling, hhandled, hattached⟩ hs

end Mirrors

omit [Feed σ] in
theorem mirrors_start (f : σ) : (start f).Mirrors {} where
  queue := rfl
  callers := rfl
  hands := rfl
  handling r := by simp [start, Tally.ofTrace]
  handled r := by simp [start, Tally.ofTrace]
  attached := ⟨rfl, by simp [start]⟩

theorem run?_eq_foldlM (m : Service σ) (labels : List Label) :
    m.run? h labels = labels.foldlM (fun m label => m.step? h label) m :=
  eq_foldlM (fun _ => rfl) (fun _ _ _ => rfl) m labels

theorem Mirrors.run {labels : List Label} (hi : m.Mirrors e) (hr : m.run? h labels = some m') :
    ∃ more e', e.run? more = some e' ∧ m'.Mirrors e' := by
  rw [run?_eq_foldlM] at hr
  refine foldlM_keeps (P := fun m' : Service σ => ∃ more e', e.run? more = some e' ∧ m'.Mirrors e')
    (fun a b label _ ha hs => ?_) ⟨[], e, rfl, hi⟩ hr
  obtain ⟨first, e₁, hfirst, ha⟩ := ha
  obtain ⟨more, e', hmore, hb⟩ := ha.step (step_of_step? hs)
  exact ⟨first ++ more, e', Exchange.run?_append hfirst hmore, hb⟩

namespace Mirrors

omit [Feed σ] in
/-- A call that has returned tells whether the invocation with its record has, and who is told that
the consumer is gone has a record that was never passed to a handler. -/
theorem truthful (hi : m.Mirrors e) (hs : e.Sound) {i : Nat} {c : Caller} {a : Answer}
    (hc : m.callers[i]? = some c) (ha : c.answer? = some a) :
    (a = .handled ↔ c.record ∈ (Tally.ofTrace m.link.trace).returned) ∧
      (a = .failed .consumerGone → c.record ∉ (Tally.ofTrace m.link.trace).passed) := by
  rw [← hi.callers] at hc
  have htells := hs.tells_of_returned hc (Caller.answer?_eq_some_iff.mp ha)
  constructor
  · have hhandled := htells.handled
    rw [ha, Option.some.injEq, hi.handled] at hhandled
    exact hhandled
  · rintro rfl
    rw [← hi.handling]
    exact hs.unseen hc (htells.gone.mp ha)

theorem returned_of_rest (hi : m.Mirrors e) (hs : e.Sound)
    (hrest : ∀ i, m.step? h (.caller i) = none) (hcalls : m.link.queue.calls = [])
    (hp : m.consumer.place.ticket? = none) {c : Caller} (hc : c ∈ m.callers) :
    c.answer?.isSome := by
  obtain ⟨i, hc⟩ := List.mem_iff_getElem?.mp hc
  have hstep : c.step? m.link.queue = none := by
    have hnone := hrest i
    simp only [step?, hc, Option.bind_eq_bind, Option.bind_some] at hnone
    cases hs : c.step? m.link.queue with
    | none => rfl
    | some next => simp [hs] at hnone
  have hhands : e.hands = [] := by
    have hholds := hi.hands
    unfold Consumer.Place.Holds at hholds
    split at hholds <;> simp_all
  rw [← hi.queue] at hcalls hstep
  rw [← hi.callers] at hc
  have htold := hs.told i c hc
  cases hplace : c.place with
  | rejected fields =>
    rcases fields with _ | ⟨_ | _, rest⟩ <;> simp [Caller.step?, hplace] at hstep
  | returned a => simp [Caller.answer?, hplace]
  | blocked ticket =>
    simp only [Caller.Told, hplace] at htold
    obtain ⟨site, hsite, -⟩ := htold
    -- nothing is left but answers, and an answer can be collected
    have hanswer : ∃ a, site = .answered a := by
      simp only [Exchange.sites, hcalls, hhands, List.map_nil, List.nil_append] at hsite
      obtain ⟨x, -, heq⟩ := List.mem_map.mp hsite
      cases heq
      exact ⟨_, rfl⟩
    obtain ⟨a, rfl⟩ := hanswer
    simp only [Caller.step?, hplace, Option.map_eq_none_iff] at hstep
    exact (Exchange.collect?_ne_none hsite hstep).elim

end Mirrors

end Handoff.Service
