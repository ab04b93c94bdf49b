import Handoff.Proofs.Progress
import Handoff.Proofs.Serving

/-! A consumer finalizes once, after the last invocation, if it is sent its context, and not at all
if it is not or if an invocation panics. -/
namespace Handoff

/-- The invocation with this number, which is given this record, comes to a panic. -/
def Handler.Panics (h : Handler) (n : Nat) (r : Record) : Prop := ∃ p, .panic p ∈ h n r

def Event.joined? : Event → Option Bool
  | joined isOk => some isOk
  | _ => none

def joins (es : List Event) : List Bool := es.filterMap Event.joined?

@[simp] theorem joins_append (es more : List Event) : joins (es ++ more) = joins es ++ joins more :=
  List.filterMap_append

@[simp] theorem joins_releasing (rs : List Record) : joins (Event.releasing rs) = [] := by
  simp [joins, Event.releasing, Event.joined?]

@[simp] theorem joins_leftover (call : Call) (isHeld : Bool) :
    joins (Consumer.leftover call isHeld) = [] := by
  cases isHeld <;> rfl

theorem joins_publishing {es : List Event} (h : ∀ e ∈ es, e.isPublishing) : joins es = [] := by
  refine List.filterMap_eq_nil_iff.mpr fun e he => ?_
  have hpublishing := h e he
  cases e <;> first | rfl | cases hpublishing

variable {σ : Type}

namespace Consumer

theorem notes_dropPart (c : Consumer) (l : Link σ) (part : Part) :
    ∃ es, (c.dropPart l part).2.trace = l.trace ++ es ∧ joins es = [] ∧
      Tally.ofTrace (l.trace ++ es) = Tally.ofTrace l.trace := by
  cases part with
  | context => exact ⟨[], by simp [dropPart], rfl, by simp⟩
  | handler =>
    have hnone : joins [.handlerDropped] = [] := rfl
    exact ⟨Event.releasing c.kept ++ [.handlerDropped], by simp [dropPart], by simp [hnone],
      by simp⟩
  | receiver => exact ⟨Event.releasing l.queue.dropReceiver.2, by simp [dropPart], by simp, by simp⟩

theorem tally_dropPart (c : Consumer) (l : Link σ) (part : Part) :
    Tally.ofTrace (c.dropPart l part).2.trace = Tally.ofTrace l.trace := by
  obtain ⟨es, htrace, -, htally⟩ := c.notes_dropPart l part
  rw [htrace, htally]

end Consumer

variable [Feed σ] {h : Handler} {exit? : Option (Exit × Nat)} {c c' : Consumer} {l l' : Link σ}

namespace Consumer

theorem joins_act (c : Consumer) (l : Link σ) (call : Call) (isHeld : Bool) (rest : List Act)
    (a : Act) : joins (c.act l call isHeld rest a).2.trace = joins l.trace := by
  cases a with
  | stop => simp [act, Link.raise, joins, Event.joined?]
  | finishStop | keep | setAside => rfl
  | releaseKept | panic p => simp [act]
  | publish x =>
    have hnotes := joins_publishing (Feed.publish_notes x l.feed)
    simp [act, Link.publish, hnotes]

structure Whole (panic? : Option Payload) (y : Tally) : Prop where
  panic : panic? = none
  passed : y.passed = y.returned

/-- The last invocation has panicked, and all others have returned. -/
structure Broken (h : Handler) (panic? : Option Payload) (y : Tally) : Prop where
  panic : panic?.isSome
  passed : ∃ r, y.passed = y.returned ++ [r] ∧ h.Panics y.returned.length r

/-- How far the handler has come, by the place of the consumer. -/
def Stands (h : Handler) (c : Consumer) (y : Tally) : Prop :=
  match c.place with
  | .handling call _ acts =>
    c.panic? = none ∧ y.passed = y.returned ++ [call.record] ∧
      ∀ p, .panic p ∈ acts ↔ .panic p ∈ h y.returned.length call.record
  | .unwinding _ => Broken h c.panic? y
  | .leaving _ | .gone => Whole c.panic? y ∨ Broken h c.panic? y
  | .fresh | .receiving | .returning _ | .awaiting | .joining _ | .resolving _ => Whole c.panic? y

theorem Stands.cases {y : Tally} (hs : c.Stands h y) : Whole c.panic? y ∨ Broken h c.panic? y ∨
    (c.panic? = none ∧ ∃ call isHeld acts, c.place = .handling call isHeld acts ∧
      y.passed = y.returned ++ [call.record]) := by
  unfold Stands at hs
  split at hs
  next call isHeld acts hp => exact .inr (.inr ⟨hs.1, call, isHeld, acts, hp, hs.2.1⟩)
  next => exact .inr (.inl hs)
  next => exact hs.imp_right .inl
  next => exact hs.imp_right .inl
  all_goals exact .inl hs

/-- Invocations are counted, and one returns only if there is no panic in it. -/
structure Paced (h : Handler) (c : Consumer) (y : Tally) : Prop where
  invocations : c.invocations = y.passed.length
  calm : ∀ n r, y.returned[n]? = some r → ¬ h.Panics n r
  stands : c.Stands h y

theorem Paced.consume (hi : c.Paced h (.ofTrace l.trace)) (hs : c.Step h exit? l c' l') :
    c'.Paced h (.ofTrace l'.trace) := by
  obtain ⟨hn, hcalm, hstands⟩ := hi
  unfold Stands at hstands
  cases hs with
  | begin hp | drained hp | answer hp | join hp =>
    rw [hp] at hstands
    exact ⟨hn, hcalm, hstands⟩
  | @take call q hp hq =>
    rw [hp] at hstands
    have hlength : c.invocations = (Tally.ofTrace l.trace).returned.length := by
      rw [hn, hstands.passed]
    refine ⟨by simp [hn], by simpa using hcalm, ?_⟩
    simp only [Stands]
    exact ⟨hstands.panic, by simp [hstands.passed], fun p => by simp [hlength]⟩
  | @act call isHeld a rest hp =>
    rw [hp] at hstands
    obtain ⟨hpanic, hpassed, hacts⟩ := hstands
    have htally := (c.act_aside l call isHeld rest a).tally
    have hinvocations := (c.act_frame l call isHeld rest a).1
    refine ⟨by rw [hinvocations, htally, hn], by rw [htally]; exact hcalm, ?_⟩
    rw [htally]
    cases a with
    | panic p => exact ⟨rfl, call.record, hpassed, p, (hacts p).mp List.mem_cons_self⟩
    | _ => exact ⟨hpanic, hpassed, fun p => by simp [← hacts p]⟩
  | @finish call isHeld hp =>
    rw [hp] at hstands
    obtain ⟨hpanic, hpassed, hacts⟩ := hstands
    refine ⟨by simp [hn], fun n r hr => ?_, hpanic, by simp [hpassed]⟩
    have hr' : ((Tally.ofTrace l.trace).returned ++ [call.record])[n]? = some r := by simpa using hr
    by_cases hlt : n < (Tally.ofTrace l.trace).returned.length
    · rw [List.getElem?_append_left hlt] at hr'
      exact hcalm n r hr'
    · rw [List.getElem?_append_right (by omega), List.getElem?_singleton] at hr'
      split at hr' <;> cases hr'
      have heq : n = (Tally.ofTrace l.trace).returned.length := by omega
      rintro ⟨p, hp'⟩
      rw [heq] at hp'
      exact absurd ((hacts p).mpr hp') (by simp)
  | unwind hp =>
    rw [hp] at hstands
    exact ⟨hn, hcalm, .inr hstands⟩
  | giveUp hp | resolve hp =>
    rw [hp] at hstands
    exact ⟨hn, hcalm, .inl hstands⟩
  | judge hp =>
    rw [hp] at hstands
    exact ⟨by simpa using hn, by simpa using hcalm, hstands.panic, by simpa using hstands.passed⟩
  | @drop part rest hp =>
    rw [hp] at hstands
    obtain ⟨hinvocations, hpanic⟩ := c.dropPart_frame l part
    have htally := c.tally_dropPart l part
    rw [← htally] at hn hcalm hstands
    rw [← hpanic] at hstands
    exact ⟨hinvocations.trans hn, hcalm, hstands⟩
  | leave hp =>
    rw [hp] at hstands
    exact ⟨hn, hcalm, hstands⟩

/-- Whoever has come to the end of his loop in peace has seen the queue closed and drained. -/
def Closed (c : Consumer) (q : CallQueue) : Prop :=
  c.panic? = none → c.place.isClosing ∨ c.place.isLeaving → q.hasSender = false ∧ q.calls = []

theorem Closed.consume (hi : c.Closed l.queue) (hp : c.Paced h (.ofTrace l.trace))
    (hs : c.Step h exit? l c' l') : c'.Closed l'.queue := by
  have hstands := hp.stands
  unfold Stands at hstands
  unfold Closed at hi ⊢
  cases hs with
  | begin hp | take hp hq | finish hp | answer hp => exact fun _ hplace => by simp at hplace
  | drained hp hq hn => exact fun _ _ => ⟨hn, CallQueue.take?_eq_none_iff.mp hq⟩
  | @act call isHeld a rest hp =>
    intro hpanic hplace
    rcases c.act_place l call isHeld rest a with ⟨isHeld', acts, hp'⟩ | hp' <;> simp [hp'] at hplace
  | unwind hp =>
    rw [hp] at hstands
    intro (hpanic : c.panic? = none)
    have hsome := hstands.panic
    simp [hpanic] at hsome
  | join hp | giveUp hp | judge hp | resolve hp =>
    exact fun hpanic _ => hi hpanic (.inl (by rw [hp]; rfl))
  | @drop part rest hp =>
    intro hpanic _
    rw [(c.dropPart_frame l part).2] at hpanic
    obtain ⟨hsender, hcalls⟩ := hi hpanic (.inr (by rw [hp]; rfl))
    cases part with
    | context | handler => exact ⟨hsender, hcalls⟩
    | receiver => exact ⟨hsender, rfl⟩
  | leave hp => exact fun hpanic _ => hi hpanic (.inr (by rw [hp]; rfl))

end Consumer

namespace Service

/-- The records of all calls in the order of their pushes: those that were passed to the handler,
those that wait in the queue, and those that were dropped with the receiver or came too late for it,
which takes a panic. -/
structure Lined (records : List Record) (q : CallQueue) (panic? : Option Payload) (y : Tally) :
    Prop where
  records : ∃ others, records = y.passed ++ q.calls.map (·.record) ++ others ∧
    (q.hasReceiver = true ∨ panic? = none → others = [])
  calls : q.hasReceiver = false → q.calls = []

theorem Lined.consume {records : List Record}
    (hi : Lined records l.queue c.panic? (.ofTrace l.trace)) (hc : c.Closed l.queue)
    (hs : c.Step h exit? l c' l') : Lined records l'.queue c'.panic? (.ofTrace l'.trace) := by
  obtain ⟨⟨others, hrecords, hothers⟩, hnone⟩ := hi
  cases hs with
  | @take call q hp hq =>
    obtain ⟨rest, hcalls, rfl⟩ := CallQueue.take?_eq_some hq
    refine ⟨⟨others, by simpa [hcalls] using hrecords, hothers⟩, fun hr => ?_⟩
    have hnil := hnone hr
    rw [hcalls] at hnil
    cases hnil
  | @act call isHeld a rest hp =>
    have haside := c.act_aside l call isHeld rest a
    rw [haside.queue, haside.tally]
    refine ⟨⟨others, hrecords, fun hkept => hothers (hkept.imp_right fun hpanic => ?_)⟩, hnone⟩
    cases a with
    | panic p => cases hpanic
    | _ => exact hpanic
  | @drop part rest hp =>
    rw [c.tally_dropPart, (c.dropPart_frame l part).2]
    cases part with
    | context | handler => exact ⟨⟨others, hrecords, hothers⟩, hnone⟩
    | receiver =>
      refine ⟨⟨l.queue.calls.map (·.record) ++ others, ?_, fun hkept => ?_⟩, fun _ => rfl⟩
      · simpa [Consumer.dropPart, CallQueue.dropReceiver] using hrecords
      · have hpanic : c.panic? = none := by
          simpa [Consumer.dropPart, CallQueue.dropReceiver] using hkept
        obtain ⟨-, hcalls⟩ := hc hpanic (.inr (by rw [hp]; rfl))
        rw [hcalls, hothers (.inr hpanic)]
        rfl
  | finish | judge => exact ⟨⟨others, by simpa using hrecords, hothers⟩, hnone⟩
  | begin | drained | answer | unwind | join | giveUp | resolve | leave =>
    exact ⟨⟨others, hrecords, hothers⟩, hnone⟩

inductive Offer.Shows : Offer → ContextSlot → Prop where
  | held : Shows .held .awaited
  | sent {g : UInt32} : Shows (.sent g) (.sent g)
  | withdrawn : Shows .withdrawn .lost

structure Intact (offer : Offer) (context : ContextSlot) (signal : Signal) (es : List Event) :
    Prop where
  context : offer.Shows context
  signal : signal = {}
  unjoined : joins es = []

/-- The producer was joined once, no invocation came after that, and this is what was found. -/
structure Judges (offer : Offer) (exit? : Option (Exit × Nat)) (es : List Event) (v : Completion) :
    Prop where
  ended : ∃ g exit n, offer = .sent g ∧ exit? = some (exit, n) ∧ v = .ofExit n g exit
  joined : ∃ before after, es = before ++ .joined v.isOk :: after ∧ joins before = [] ∧
    joins after = [] ∧ Tally.ofTrace before = Tally.ofTrace es

/-- The loop has come to its end: the context was used, or it was never sent. -/
inductive Settles (offer : Offer) (exit? : Option (Exit × Nat)) (context : ContextSlot)
    (signal : Signal) (es : List Event) : Prop where
  | finalized {v} (hj : Judges offer exit? es v) (hc : context = .used)
    (hs : signal = { value := some v })
  | withdrawn (ho : offer = .withdrawn) (hc : context = .lost) (hs : signal = {})
    (hj : joins es = [])

/-- The context was destroyed unused, or nobody is left who could receive it. -/
inductive Forsakes (context : ContextSlot) (signal : Signal) : Offer → Prop where
  | held (hc : context = .refused) (hs : signal = {}) : Forsakes context signal .held
  | sent {g} (hc : context = .used) (hs : signal = { value := some (.failed .consumerDropped) }) :
    Forsakes context signal (.sent g)
  | withdrawn (hc : context = .lost ∨ context = .refused) (hs : signal = {}) :
    Forsakes context signal .withdrawn

inductive Leaves (offer : Offer) (exit? : Option (Exit × Nat)) (panic? : Option Payload)
    (context : ContextSlot) (signal : Signal) (es : List Event) (parts : List Consumer.Part) :
    Prop where
  | settled (hp : panic? = none) (hparts : .context ∉ parts)
    (hs : Settles offer exit? context signal es)
  | intact (hp : panic?.isSome) (hparts : .context ∈ parts) (hi : Intact offer context signal es)
  | forsaken (hp : panic?.isSome) (hparts : .context ∉ parts) (hf : Forsakes context signal offer)
    (hj : joins es = [])

/-- What became of the context and of the completion, by the place of the consumer. -/
def Tendered (offer : Offer) (exit? : Option (Exit × Nat)) (c : Consumer) (es : List Event) :
    Prop :=
  match c.place with
  | .fresh | .receiving | .handling .. | .returning _ | .unwinding _ | .awaiting =>
    Intact offer c.context c.signal es
  | .joining g => offer = .sent g ∧ c.context = .used ∧ c.signal = {} ∧ joins es = []
  | .resolving v => Judges offer exit? es v ∧ c.context = .used ∧ c.signal = {}
  | .leaving parts => Leaves offer exit? c.panic? c.context c.signal es parts
  | .gone => Leaves offer exit? c.panic? c.context c.signal es []

variable {offer : Offer} {es more : List Event}

theorem Judges.ne_held {v : Completion} (hi : Judges offer exit? es v) : offer ≠ .held := by
  obtain ⟨g, exit, n, ho, -⟩ := hi.ended
  simp [ho]

theorem Judges.isSome_exit {v : Completion} (hi : Judges offer exit? es v) : exit?.isSome := by
  obtain ⟨g, exit, n, -, he, -⟩ := hi.ended
  simp [he]

theorem Settles.ne_held {context : ContextSlot} {signal : Signal}
    (hs : Settles offer exit? context signal es) : offer ≠ .held := by
  cases hs with
  | finalized hj => exact hj.ne_held
  | withdrawn ho => simp [ho]

theorem Judges.joins_eq {v : Completion} (hi : Judges offer exit? es v) : joins es = [v.isOk] := by
  obtain ⟨before, after, heq, hbefore, hafter, -⟩ := hi.joined
  have hcons : joins (.joined v.isOk :: after) = v.isOk :: joins after := rfl
  rw [heq, joins_append, hbefore, hcons, hafter, List.nil_append]

theorem Judges.grow {v : Completion} (hi : Judges offer exit? es v) (hj : joins more = [])
    (ht : Tally.ofTrace (es ++ more) = Tally.ofTrace es) : Judges offer exit? (es ++ more) v := by
  obtain ⟨hended, before, after, heq, hbefore, hafter, htally⟩ := hi
  refine ⟨hended, before, after ++ more, ?_, hbefore, ?_, htally.trans ht.symm⟩
  · rw [heq, List.append_assoc, List.cons_append]
  · rw [joins_append, hafter, hj, List.append_nil]

theorem Intact.grow {context : ContextSlot} {signal : Signal} (hi : Intact offer context signal es)
    (hj : joins more = []) : Intact offer context signal (es ++ more) :=
  ⟨hi.context, hi.signal, by rw [joins_append, hi.unjoined, hj, List.append_nil]⟩

theorem Intact.forsake (hi : Intact offer c.context c.signal es) :
    Forsakes c.dropContext.context c.dropContext.signal offer := by
  obtain ⟨hshows, hsignal, -⟩ := hi
  unfold Consumer.dropContext
  cases hc : c.context with
  | awaited =>
    rw [hc] at hshows
    cases hshows
    exact .held rfl hsignal
  | sent g =>
    rw [hc] at hshows
    cases hshows
    refine .sent rfl ?_
    simp [hsignal, Signal.abandon, Signal.send]
  | lost =>
    rw [hc] at hshows
    cases hshows
    exact .withdrawn (.inl hc) hsignal
  | refused | used =>
    rw [hc] at hshows
    cases hshows

theorem Settles.grow {context : ContextSlot} {signal : Signal}
    (hs : Settles offer exit? context signal es) (hj : joins more = [])
    (ht : Tally.ofTrace (es ++ more) = Tally.ofTrace es) :
    Settles offer exit? context signal (es ++ more) := by
  cases hs with
  | finalized hv hc hs => exact .finalized (hv.grow hj ht) hc hs
  | withdrawn ho hc hs hnone =>
    exact .withdrawn ho hc hs (by rw [joins_append, hnone, hj, List.append_nil])

theorem Leaves.imp {offer' : Offer} {exit?' : Option (Exit × Nat)} {panic? : Option Payload}
    {context context' : ContextSlot} {signal signal' : Signal} {es' : List Event}
    {parts : List Consumer.Part} (hl : Leaves offer exit? panic? context signal es parts)
    (hsettles : Settles offer exit? context signal es → Settles offer' exit?' context' signal' es')
    (hintact : Intact offer context signal es → Intact offer' context' signal' es')
    (hforsakes : Forsakes context signal offer → Forsakes context' signal' offer')
    (hjoins : joins es = [] → joins es' = []) :
    Leaves offer' exit?' panic? context' signal' es' parts := by
  cases hl with
  | settled hp hparts hs => exact .settled hp hparts (hsettles hs)
  | intact hp hparts hi => exact .intact hp hparts (hintact hi)
  | forsaken hp hparts hf hj => exact .forsaken hp hparts (hforsakes hf) (hjoins hj)

theorem Leaves.grow {panic? : Option Payload} {context : ContextSlot} {signal : Signal}
    {parts : List Consumer.Part} (hi : Leaves offer exit? panic? context signal es parts)
    (hj : joins more = []) (ht : Tally.ofTrace (es ++ more) = Tally.ofTrace es) :
    Leaves offer exit? panic? context signal (es ++ more) parts :=
  hi.imp (·.grow hj ht) (·.grow hj) id fun hnone => by
    rw [joins_append, hnone, hj, List.append_nil]

theorem Intact.act (hi : Intact offer c.context c.signal l.trace) (call : Call) (isHeld : Bool)
    (rest : List Act) (a : Act) :
    Intact offer (c.act l call isHeld rest a).1.context (c.act l call isHeld rest a).1.signal
      (c.act l call isHeld rest a).2.trace := by
  obtain ⟨-, hcontext, hsignal⟩ := c.act_frame l call isHeld rest a
  refine ⟨?_, ?_, ?_⟩
  · rw [hcontext]
    exact hi.context
  · rw [hsignal]
    exact hi.signal
  · rw [c.joins_act]
    exact hi.unjoined

omit [Feed σ] in
/-- Whoever still has his context drops it before anything else, and then it is as good as gone. -/
theorem Leaves.dropPart {part : Consumer.Part} {rest : List Consumer.Part}
    (hi : Leaves offer exit? c.panic? c.context c.signal l.trace (part :: rest))
    (hparts : part :: rest <:+ [.context, .handler, .receiver]) :
    Leaves offer exit? (c.dropPart l part).1.panic? (c.dropPart l part).1.context
      (c.dropPart l part).1.signal (c.dropPart l part).2.trace rest := by
  rw [(c.dropPart_frame l part).2]
  obtain ⟨more, htrace, hnone, htally⟩ := c.notes_dropPart l part
  have hkeep (hnot : .context ∉ part :: rest)
      (hleaves : Leaves offer exit? c.panic? c.context c.signal l.trace rest) :
      Leaves offer exit? c.panic? (c.dropPart l part).1.context (c.dropPart l part).1.signal
        (c.dropPart l part).2.trace rest := by
    have hgrow := hleaves.grow hnone htally
    rw [← htrace] at hgrow
    cases part with
    | context => simp at hnot
    | handler | receiver => exact hgrow
  cases hi with
  | settled hp hnot hs =>
    exact hkeep hnot (.settled hp (fun hm => hnot (List.mem_cons_of_mem _ hm)) hs)
  | forsaken hp hnot hf hj =>
    exact hkeep hnot (.forsaken hp (fun hm => hnot (List.mem_cons_of_mem _ hm)) hf hj)
  | intact hp hmem hi =>
    rcases Consumer.part_cases hparts with ⟨rfl, rfl⟩ | ⟨rfl, rfl⟩ | ⟨rfl, rfl⟩
    · exact .forsaken hp (by simp) hi.forsake hi.unjoined
    · simp at hmem
    · simp at hmem

theorem Tendered.grow (hi : Tendered offer exit? c es) (hj : joins more = [])
    (ht : Tally.ofTrace (es ++ more) = Tally.ofTrace es) : Tendered offer exit? c (es ++ more) := by
  unfold Tendered at hi ⊢
  split at hi
  case h_7 => exact ⟨hi.1, hi.2.1, hi.2.2.1, by rw [joins_append, hi.2.2.2, hj, List.append_nil]⟩
  case h_8 => exact ⟨hi.1.grow hj ht, hi.2⟩
  case h_9 | h_10 => exact hi.grow hj ht
  all_goals exact hi.grow hj

theorem Tendered.consume (hi : Tendered offer exit? c l.trace) (hp : c.Paced h (.ofTrace l.trace))
    (ha : c.Attached l.queue) (hs : c.Step h exit? l c' l') :
    Tendered offer exit? c' l'.trace := by
  have hstands := hp.stands
  unfold Consumer.Stands at hstands
  unfold Tendered at hi
  cases hs with
  | begin hp | drained hp | answer hp =>
    rw [hp] at hi
    exact hi
  | @take call q hp hq =>
    rw [hp] at hi
    have hnone : joins [.handling call.record] = [] := rfl
    have hgrow := hi.grow hnone
    rw [← Link.trace_note] at hgrow
    exact hgrow
  | @act call isHeld a rest hp =>
    rw [hp] at hi
    have hintact := hi.act call isHeld rest a
    unfold Tendered
    rcases c.act_place l call isHeld rest a with ⟨isHeld', acts, hp'⟩ | hp'
    · rw [hp']
      exact hintact
    · rw [hp']
      exact hintact
  | @finish call isHeld hp =>
    rw [hp] at hi
    have hnone : joins (.handled call.record :: Consumer.leftover call isHeld) = [] := by
      cases isHeld <;> rfl
    have hgrow := hi.grow hnone
    rw [← Link.trace_note] at hgrow
    exact hgrow
  | unwind hp =>
    rw [hp] at hi hstands
    exact .intact hstands.panic List.mem_cons_self hi
  | join hp hc =>
    rw [hp] at hi
    have hshows := hi.context
    rw [hc] at hshows
    cases hshows
    exact ⟨rfl, rfl, hi.signal, hi.unjoined⟩
  | giveUp hp hc =>
    rw [hp] at hi hstands
    obtain ⟨hshows, hsignal, hjoins⟩ := hi
    cases hcontext : c.context with
    | lost =>
      rw [hcontext] at hshows
      cases hshows
      exact .settled hstands.panic (by simp) (.withdrawn rfl rfl hsignal hjoins)
    | awaited | sent g => simp [hcontext] at hc
    | refused | used =>
      rw [hcontext] at hshows
      cases hshows
  | @judge g exit n hp he =>
    rw [hp] at hi
    obtain ⟨hoffer, hcontext, hsignal, hjoins⟩ := hi
    refine ⟨⟨⟨g, exit, n, hoffer, he, rfl⟩, l.trace, [], ?_, hjoins, rfl, ?_⟩, hcontext, hsignal⟩
    · rw [Link.trace_note]
    · simp
  | @resolve v hp =>
    rw [hp] at hi hstands
    obtain ⟨hjudges, hcontext, hsignal⟩ := hi
    refine .settled hstands.panic (by simp) (.finalized hjudges hcontext ?_)
    simp [hsignal, Signal.send]
  | @drop part rest hp =>
    rw [hp] at hi
    exact hi.dropPart (ha.parts _ hp)
  | leave hp =>
    rw [hp] at hi
    exact hi

theorem Intact.awaited {context : ContextSlot} {signal : Signal}
    (hi : Intact .held context signal es) : context = .awaited := by
  cases hi.context
  rfl

theorem Forsakes.refused {context : ContextSlot} {signal : Signal}
    (hf : Forsakes context signal .held) : context = .refused ∧ signal = {} := by
  cases hf with
  | held hc hs => exact ⟨hc, hs⟩

/-- While the context is still held it is of use to whoever waits for it, or to nobody. -/
theorem Tendered.decide (hi : Tendered .held exit? c es) {context : ContextSlot} {signal : Signal}
    (hintact : Intact .held c.context c.signal es → Intact offer context signal es)
    (hforsakes : Forsakes c.context c.signal .held → Forsakes context signal offer) :
    Tendered offer exit? { c with context := context, signal := signal } es := by
  have hleaves {parts : List Consumer.Part}
      (hl : Leaves .held exit? c.panic? c.context c.signal es parts) :
      Leaves offer exit? c.panic? context signal es parts :=
    hl.imp (fun hs => (hs.ne_held rfl).elim) hintact hforsakes id
  unfold Tendered at hi
  cases hp : c.place with
  | joining g =>
    rw [hp] at hi
    cases hi.1
  | resolving v =>
    rw [hp] at hi
    exact (hi.1.ne_held rfl).elim
  | leaving parts =>
    rw [hp] at hi
    simp only [Tendered]
    exact hleaves hi
  | gone =>
    rw [hp] at hi
    simp only [Tendered]
    exact hleaves hi
  | fresh | receiving | handling _ _ _ | returning _ | unwinding _ | awaiting =>
    rw [hp] at hi
    simp only [Tendered]
    exact hintact hi

theorem Tendered.send (hi : Tendered .held exit? c es) (g : UInt32) :
    Tendered (.sent g) exit? ((c.sendContext? g).getD c) es := by
  unfold Consumer.sendContext?
  cases hc : c.context with
  | awaited =>
    refine hi.decide (fun hi => ⟨.sent, hi.signal, hi.unjoined⟩) fun hf => ?_
    exact absurd hf.refused.1 (by simp [hc])
  | refused =>
    refine hi.decide (fun hi => absurd hi.awaited (by simp [hc])) fun hf => .sent rfl ?_
    simp [hf.refused.2, Signal.abandon, Signal.send]
  | sent _ | lost | used =>
    exact hi.decide (fun hi => absurd hi.awaited (by simp [hc]))
      fun hf => absurd hf.refused.1 (by simp [hc])

theorem Tendered.withdraw (hi : Tendered .held exit? c es) :
    Tendered .withdrawn exit? (c.loseContext?.getD c) es := by
  unfold Consumer.loseContext?
  cases hc : c.context with
  | awaited =>
    refine hi.decide (fun hi => ⟨.withdrawn, hi.signal, hi.unjoined⟩) fun hf => ?_
    exact absurd hf.refused.1 (by simp [hc])
  | refused =>
    exact hi.decide (fun hi => absurd hi.awaited (by simp [hc]))
      fun hf => .withdrawn (.inr hf.refused.1) hf.refused.2
  | sent _ | lost | used =>
    exact hi.decide (fun hi => absurd hi.awaited (by simp [hc]))
      fun hf => absurd hf.refused.1 (by simp [hc])

theorem Tendered.endThread (hi : Tendered offer none c es) (end? : Option (Exit × Nat)) :
    Tendered offer end? c es := by
  have hunended {v : Completion} (hv : Judges offer none es v) : False :=
    Bool.noConfusion hv.isSome_exit
  have hleaves {parts : List Consumer.Part}
      (hl : Leaves offer none c.panic? c.context c.signal es parts) :
      Leaves offer end? c.panic? c.context c.signal es parts := by
    refine hl.imp (fun hs => ?_) id id id
    cases hs with
    | finalized hv => exact (hunended hv).elim
    | withdrawn ho hc hs hj => exact .withdrawn ho hc hs hj
  unfold Tendered at hi ⊢
  split at hi
  case h_8 => exact (hunended hi.1).elim
  case h_9 | h_10 => exact hleaves hi
  all_goals exact hi

end Service

end Handoff
