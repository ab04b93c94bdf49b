import Handoff.Proofs.Steps
import Handoff.Proofs.Stock

/-! Callers who supply the source of a bridge with records, and where all these records are: no step
of the bridge or of a caller loses one or doubles it. -/
namespace Handoff

open Record (copies)

/-- What a caller does who has records of his own. -/
inductive Supply where
  | ask (x : Publishing)
  | make (id : UInt32)
  /-- Second half of a publication; the first is a look for a stop, which moves nothing. -/
  | send (p : Nat) (r : Record)
  | discard (r : Record)
deriving DecidableEq, Repr

/-- A source, the records in the hands of its callers, and what was noted so far. -/
structure Depot (σ : Type) where
  feed : σ
  hands : List Record := []
  noted : List Event := []
deriving DecidableEq, Repr

namespace Depot

variable {σ : Type} [Feed σ] [Stock σ]

def supply? (d : Depot σ) : Supply → Option (Depot σ)
  | .ask x =>
    let (f, es) := Feed.publish x d.feed
    some { d with feed := f, noted := d.noted ++ es }
  | .make id =>
    let (r, f) := Stock.make id d.feed
    some { d with feed := f, hands := d.hands ++ [r] }
  | .send p r =>
    if r ∈ d.hands then
      match Stock.send? p r d.feed with
      | some f => some ⟨f, d.hands.erase r, d.noted ++ [.published r]⟩
      | none => some { d with noted := d.noted ++ [.rejected r] }
    else none
  | .discard r =>
    if r ∈ d.hands then
      some { d with hands := d.hands.erase r, noted := d.noted ++ [.released r] }
    else none

def supplyAll? (d : Depot σ) : List Supply → Option (Depot σ)
  | [] => some d
  | x :: rest => (d.supply? x).bind fun next => next.supplyAll? rest

def records (d : Depot σ) : List Record :=
  Stock.held d.feed ++ d.hands ++ Event.releases d.noted

theorem conserved_supply? {d d' : Depot σ} {x : Supply} (hs : d.supply? x = some d') :
    Conserved (Stock.made d.feed) (Stock.made d'.feed) d.records d'.records := by
  cases x with
  | ask x =>
    have hpub := Stock.conserved_publish x d.feed
    rcases hf : Feed.publish x d.feed with ⟨f, es⟩
    rw [hf] at hpub
    simp only [supply?, hf] at hs
    cases hs
    apply hpub.within
    intro s
    simp [records]
    omega
  | make id =>
    have hmake := Stock.conserved_make id d.feed
    rcases hf : Stock.make id d.feed with ⟨r, f⟩
    rw [hf] at hmake
    simp only [supply?, hf] at hs
    cases hs
    apply hmake.within
    intro s
    simp [records]
    omega
  | send p r =>
    simp only [supply?, Option.ite_none_right_eq_some] at hs
    obtain ⟨hr, hs⟩ := hs
    split at hs
    next f hf =>
      cases hs
      have hsend := Stock.conserved_send? hf
      apply hsend.within
      intro s
      have herase := Record.copies_erase hr s
      simp [records] at herase ⊢
      omega
    next =>
      cases hs
      exact .of_copies_eq fun s => by simp [records]
  | discard r =>
    simp only [supply?, Option.ite_none_right_eq_some, Option.some.injEq] at hs
    obtain ⟨hr, rfl⟩ := hs
    apply Conserved.of_copies_eq
    intro s
    have herase := Record.copies_erase hr s
    simp [records] at herase ⊢
    omega

theorem conserved_supplyAll? {d d' : Depot σ} {xs : List Supply}
    (hs : d.supplyAll? xs = some d') :
    Conserved (Stock.made d.feed) (Stock.made d'.feed) d.records d'.records := by
  induction xs generalizing d with
  | nil =>
    cases hs
    exact .of_copies_eq fun _ => rfl
  | cons x rest ih =>
    obtain ⟨m, hm, hs⟩ := Option.bind_eq_some_iff.mp hs
    exact (conserved_supply? hm).trans (ih hs)

theorem notes_supply? {d d' : Depot σ} {x : Supply} (hs : d.supply? x = some d') :
    ∃ es : List Event, d'.noted = d.noted ++ es ∧ ∀ e ∈ es, e.isPublishing := by
  cases x with
  | ask x =>
    cases hs
    exact ⟨_, rfl, Feed.publish_notes x d.feed⟩
  | make id =>
    cases hs
    exact ⟨[], (List.append_nil _).symm, by simp⟩
  | send p r =>
    simp only [supply?, Option.ite_none_right_eq_some] at hs
    obtain ⟨-, hs⟩ := hs
    split at hs <;> cases hs
    · exact ⟨_, rfl, by simp [Event.isPublishing]⟩
    · exact ⟨_, rfl, by simp [Event.isPublishing]⟩
  | discard r =>
    simp only [supply?, Option.ite_none_right_eq_some, Option.some.injEq] at hs
    obtain ⟨-, rfl⟩ := hs
    exact ⟨_, rfl, by simp [Event.isPublishing]⟩

theorem notes_supplyAll? {d d' : Depot σ} {xs : List Supply} (hs : d.supplyAll? xs = some d') :
    ∃ es : List Event, d'.noted = d.noted ++ es ∧ ∀ e ∈ es, e.isPublishing := by
  induction xs generalizing d with
  | nil =>
    cases hs
    exact ⟨[], (List.append_nil _).symm, by simp⟩
  | cons x rest ih =>
    obtain ⟨m, hm, hs⟩ := Option.bind_eq_some_iff.mp hs
    obtain ⟨es, hnoted, hes⟩ := notes_supply? hm
    obtain ⟨more, hmore, hall⟩ := ih hs
    refine ⟨es ++ more, by rw [hmore, hnoted, List.append_assoc], fun e he => ?_⟩
    exact (List.mem_append.mp he).elim (hes e) (hall e)

theorem isQuiet_supplyAll? {d d' : Depot σ} {xs : List Supply} (hs : d.supplyAll? xs = some d')
    (hd : ∀ e ∈ d.noted, e.isQuiet) : ∀ e ∈ d'.noted, e.isQuiet := by
  obtain ⟨es, hnoted, hes⟩ := notes_supplyAll? hs
  intro e he
  rw [hnoted] at he
  rcases List.mem_append.mp he with he | he
  · exact hd e he
  · exact Event.isQuiet_of_isPublishing (hes e he)

end Depot

def CallQueue.records (q : CallQueue) : List Record := q.calls.map (·.record)

@[simp] def Producer.Place.records : Producer.Place → List Record
  | pushing r => [r]
  | starting | fetching | waiting | calling _ | retiring _ | marking _ | releasing _ | ended _
  | aborted _ => []

theorem Producer.Place.records_afterFetch (o : Outcome) :
    (Place.afterFetch o).records = o.record?.toList := by
  cases o <;> rfl

@[simp] def Consumer.Place.records : Consumer.Place → List Record
  | handling call true _ => [call.record]
  | handling _ false _ | fresh | receiving | returning _ | unwinding _ | awaiting | joining _
  | resolving _ | leaving _ | gone => []

def Consumer.records (c : Consumer) : List Record := c.place.records ++ c.kept

variable {σ : Type} [Feed σ] [Stock σ]

def Link.records (l : Link σ) : List Record :=
  Stock.held l.feed ++ l.queue.records ++ Event.releases l.trace

namespace Link

theorem conserved_fed (l : Link σ) (f : σ) (es : List Event)
    (hf : Conserved (Stock.made l.feed) (Stock.made f) (Stock.held l.feed)
      (Stock.held f ++ Event.releases es)) :
    Conserved (Stock.made l.feed) (Stock.made f) l.records (l.fed f es).records := by
  apply hf.within
  intro s
  simp [records]
  omega

theorem conserved_raise (l : Link σ) :
    Conserved (Stock.made l.feed) (Stock.made l.raise.feed) l.records l.raise.records :=
  l.conserved_fed (Feed.raise l.feed) [.stopRequested] (by simpa using Stock.conserved_raise l.feed)

theorem conserved_wake (l : Link σ) :
    Conserved (Stock.made l.feed) (Stock.made l.wake.feed) l.records l.wake.records :=
  l.conserved_fed (Feed.wake l.feed) [] (by simpa using Stock.conserved_wake l.feed)

theorem conserved_publish (l : Link σ) (x : Publishing) :
    Conserved (Stock.made l.feed) (Stock.made (l.publish x).feed) l.records
      (l.publish x).records :=
  l.conserved_fed _ _ (Stock.conserved_publish x l.feed)

end Link

variable {h : Handler} {exit? : Option (Exit × Nat)} {p p' : Producer} {c c' : Consumer}
  {l l' : Link σ}

theorem Producer.Step.conserved (hs : p.Step l p' l') :
    Conserved (Stock.made l.feed) (Stock.made l'.feed) (l.records ++ p.place.records)
      (l'.records ++ p'.place.records) := by
  cases hs with
  | start hp | mark hp => exact .of_copies_eq fun s => by simp [Link.records, hp]
  | @enterWaiting f rs hp hf =>
    have henter := Stock.conserved_enter l.feed
    rw [hf] at henter
    apply henter.within
    intro s
    simp [Link.records, hp]
    omega
  | @enterAnswered f o rs hp hf =>
    have henter := Stock.conserved_enter l.feed
    rw [hf] at henter
    apply henter.within
    intro s
    rw [Place.records_afterFetch]
    simp [Link.records, hp]
    omega
  | receive hp hf =>
    have hreceive := Stock.conserved_receive? hf
    apply hreceive.within
    intro s
    rw [Place.records_afterFetch]
    simp [Link.records, hp]
    omega
  | pushRefused hp hq => exact .of_copies_eq fun s => by simp [Link.records, hp]
  | push hp hq =>
    cases CallQueue.push?_eq_some hq
    apply Conserved.of_copies_eq
    intro s
    simp [Link.records, CallQueue.records, hp]
  | collectHandled hp hq | collectFailed hp hq =>
    cases CallQueue.collect?_eq_some hq
    exact .of_copies_eq fun s => by simp [Link.records, CallQueue.records, hp]
  | retire hp hf =>
    have hretire := Stock.conserved_retire l.feed
    rw [hf] at hretire
    apply hretire.within
    intro s
    simp [Link.records, hp]
    omega
  | @release exit hp =>
    apply Conserved.of_copies_eq
    intro s
    have hfarewell : Event.releases (exit.farewell p.delivered) = [] := by cases exit <;> rfl
    simp [Link.records, CallQueue.records, CallQueue.dropSender, hp, hfarewell]

theorem Consumer.conserved_act {call : Call} {isHeld : Bool} {a : Act} {rest : List Act}
    (hp : c.place = .handling call isHeld (a :: rest)) :
    Conserved (Stock.made l.feed) (Stock.made (c.act l call isHeld rest a).2.feed)
      (l.records ++ (c.records ++ c.aside))
      ((c.act l call isHeld rest a).2.records ++
        ((c.act l call isHeld rest a).1.records ++ (c.act l call isHeld rest a).1.aside)) := by
  cases a with
  | stop =>
    have hraise := l.conserved_raise
    apply hraise.within
    intro s
    cases isHeld <;> simp [act, records, hp] <;> omega
  | finishStop =>
    have hwake := l.conserved_wake
    apply hwake.within
    intro s
    cases isHeld <;> simp [act, records, hp] <;> omega
  | keep | setAside | releaseKept =>
    apply Conserved.of_copies_eq
    intro s
    cases isHeld with
    | false => simp [act, records, Link.records, hp]
    | true =>
      simp [act, records, Link.records, hp]
      omega
  | panic x =>
    apply Conserved.of_copies_eq
    intro s
    cases isHeld <;> simp [act, records, Link.records, leftover, hp]
  | publish x =>
    have hpub := l.conserved_publish x
    apply hpub.within
    intro s
    cases isHeld <;> simp [act, records, hp] <;> omega

theorem Consumer.Step.conserved (hs : c.Step h exit? l c' l') :
    Conserved (Stock.made l.feed) (Stock.made l'.feed) (l.records ++ (c.records ++ c.aside))
      (l'.records ++ (c'.records ++ c'.aside)) := by
  cases hs with
  | begin hp | drained hp | answer hp | unwind hp | join hp | giveUp hp | judge hp | resolve hp
  | leave hp =>
    apply Conserved.of_copies_eq
    intro s
    simp [Link.records, CallQueue.records, CallQueue.answer, records, hp]
  | take hp hq =>
    obtain ⟨rest, hcalls, rfl⟩ := CallQueue.take?_eq_some hq
    apply Conserved.of_copies_eq
    intro s
    simp [Link.records, CallQueue.records, records, hp, hcalls]
    omega
  | act hp => exact conserved_act hp
  | @finish call isHeld hp =>
    apply Conserved.of_copies_eq
    intro s
    cases isHeld <;> simp [Link.records, records, leftover, hp]
  | @drop part rest hp =>
    cases part with
    | context =>
      obtain ⟨_, _, hdrop⟩ := c.dropContext_eq
      exact .of_copies_eq fun s => by simp [dropPart, records, hp, hdrop]
    | handler =>
      apply Conserved.of_copies_eq
      intro s
      simp [dropPart, Link.records, records, hp]
    | receiver =>
      apply Conserved.of_copies_eq
      intro s
      simp [dropPart, Link.records, CallQueue.records, CallQueue.dropReceiver, records, hp]
      omega

namespace Bridge

/-- Where no caller has a record: in the source, with the two sides or between them, with someone to
whom the handler gave it, or nowhere any more. -/
def records (b : Bridge σ) : List Record :=
  b.link.records ++ (b.producer.map (·.place.records)).getD [] ++
    (b.consumer.records ++ b.consumer.aside)

theorem conserved_linked (b : Bridge σ) {l : Link σ} (wakes : Nat)
    (hl : Conserved (Stock.made b.link.feed) (Stock.made l.feed) b.link.records l.records) :
    Conserved (Stock.made b.link.feed) (Stock.made l.feed) b.records
      { b with link := l, wakes := wakes }.records := by
  apply hl.within
  intro s
  simp [records]
  omega

theorem conserved_step? {b b' : Bridge σ} {label : Label} (hs : b.step? h label = some b') :
    Conserved (Stock.made b.link.feed) (Stock.made b'.link.feed) b.records b'.records := by
  cases (step?_eq_some_iff.mp hs).2 with
  | produce hp hside =>
    have hconserved := hside.conserved
    apply hconserved.within
    intro s
    simp [records, hp]
    omega
  | consume hside =>
    have hconserved := hside.conserved
    apply hconserved.within
    intro s
    simp [records]
    omega
  | raise => exact b.conserved_linked _ b.link.conserved_raise
  | wake => exact b.conserved_linked _ b.link.conserved_wake
  | publish x => exact b.conserved_linked _ (b.link.conserved_publish x)
  | loseConsumer hl =>
    obtain ⟨hplace, parts, rfl⟩ := Consumer.lose?_eq_some hl
    apply Conserved.of_copies_eq
    intro s
    rcases hplace with hp | hp | hp <;> simp [records, Consumer.records, hp]
  | letGo => exact .of_copies_eq fun _ => rfl

end Bridge

/-- A bridge and the records in the hands of those who supply its source. -/
structure Supplied (σ : Type) where
  bridge : Bridge σ
  hands : List Record := []
deriving DecidableEq, Repr

namespace Supplied

inductive Label where
  | bridge (label : Bridge.Label)
  | supply (x : Supply)
deriving DecidableEq, Repr

def depot (m : Supplied σ) : Depot σ := { feed := m.bridge.link.feed, hands := m.hands }

def step? (h : Handler) (m : Supplied σ) : Label → Option (Supplied σ)
  | .bridge label => (m.bridge.step? h label).map fun b => { m with bridge := b }
  | .supply x =>
    if m.bridge.abort?.isSome then none
    else (m.depot.supply? x).map fun d =>
      { bridge := { m.bridge with link := m.bridge.link.fed d.feed d.noted }, hands := d.hands }

def run? (h : Handler) (m : Supplied σ) : List Label → Option (Supplied σ)
  | [] => some m
  | label :: rest => (m.step? h label).bind fun next => next.run? h rest

theorem run?_append (m : Supplied σ) (xs ys : List Label) :
    m.run? h (xs ++ ys) = (m.run? h xs).bind fun next => next.run? h ys := by
  induction xs generalizing m with
  | nil => rfl
  | cons label rest ih =>
    rw [List.cons_append, run?, run?, Option.bind_assoc]
    exact congrArg _ (funext fun next => ih next)

def records (m : Supplied σ) : List Record := m.bridge.records ++ m.hands

variable {m m' : Supplied σ}

theorem step?_supply {x : Supply} (hs : m.step? h (.supply x) = some m') :
    ∃ d, m.depot.supply? x = some d ∧ (∀ e ∈ d.noted, e.isPublishing) ∧
      m' = { bridge := { m.bridge with link := m.bridge.link.fed d.feed d.noted }
             hands := d.hands } := by
  simp only [step?, Option.ite_none_left_eq_some, Option.map_eq_some_iff] at hs
  obtain ⟨-, d, hd, rfl⟩ := hs
  obtain ⟨es, hnoted, hes⟩ := Depot.notes_supply? hd
  replace hnoted : d.noted = es := hnoted
  exact ⟨d, hd, hnoted ▸ hes, rfl⟩

theorem conserved_step? {label : Label} (hs : m.step? h label = some m') :
    Conserved (Stock.made m.bridge.link.feed) (Stock.made m'.bridge.link.feed) m.records
      m'.records := by
  cases label with
  | bridge label =>
    obtain ⟨b, hb, rfl⟩ := Option.map_eq_some_iff.mp hs
    have hconserved := Bridge.conserved_step? hb
    apply hconserved.within
    intro s
    simp [records]
    omega
  | supply x =>
    obtain ⟨d, hd, -, rfl⟩ := step?_supply hs
    have hconserved := Depot.conserved_supply? hd
    apply hconserved.within
    intro s
    simp [records, Depot.records, depot, Bridge.records, Link.records]
    omega

theorem conserved_run? {labels : List Label} (hr : m.run? h labels = some m') :
    Conserved (Stock.made m.bridge.link.feed) (Stock.made m'.bridge.link.feed) m.records
      m'.records := by
  induction labels generalizing m with
  | nil =>
    cases hr
    exact .of_copies_eq fun _ => rfl
  | cons label rest ih =>
    obtain ⟨next, hs, hr⟩ := Option.bind_eq_some_iff.mp hr
    exact (conserved_step? hs).trans (ih hr)

end Supplied

end Handoff
