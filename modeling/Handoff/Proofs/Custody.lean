import Handoff.Proofs.Departure
import Handoff.Proofs.Refusal

/-! Every record has one owner at every moment, and once all owners are gone it was released
once. -/
namespace Handoff

open Record (copies)

def Handler.GivesNone (h : Handler) : Prop := ∀ n r, .setAside ∉ h n r

/-- What the invocation that goes on has left to do. -/
@[simp] def Consumer.Place.acts : Consumer.Place → List Act
  | handling _ _ acts => acts
  | fresh | receiving | returning _ | unwinding _ | awaiting | joining _ | resolving _
  | leaving _ | gone => []

structure Consumer.GivesNone (c : Consumer) : Prop where
  aside : c.aside = []
  acts : .setAside ∉ c.place.acts

section

variable {σ : Type} [Feed σ] {h : Handler} {exit? : Option (Exit × Nat)} {c c' : Consumer}
  {l l' : Link σ}

theorem Consumer.GivesNone.act {call : Call} {isHeld : Bool} {a : Act} {rest : List Act}
    (hi : c.GivesNone) (hp : c.place = .handling call isHeld (a :: rest)) :
    (c.act l call isHeld rest a).1.GivesNone := by
  obtain ⟨haside, hacts⟩ := hi
  simp only [hp, Place.acts, List.mem_cons, not_or] at hacts
  obtain ⟨hne, hrest⟩ := hacts
  cases a with
  | setAside => exact (hne rfl).elim
  -- a stop goes on to its second half
  | stop => exact ⟨haside, by simpa [Consumer.act] using hrest⟩
  | panic p => exact ⟨haside, by simp [Consumer.act]⟩
  | finishStop | keep | releaseKept | publish => exact ⟨haside, hrest⟩

theorem Consumer.GivesNone.step (hh : h.GivesNone) (hi : c.GivesNone)
    (hs : c.Step h exit? l c' l') : c'.GivesNone := by
  cases hs with
  | act hp => exact hi.act hp
  | take hp hq => exact ⟨hi.aside, hh _ _⟩
  | @drop part rest hp =>
    refine ⟨?_, by simp⟩
    cases part with
    | context =>
      obtain ⟨_, _, hdrop⟩ := c.dropContext_eq
      simp [dropPart, hdrop, hi.aside]
    | handler | receiver => exact hi.aside
  | _ => exact ⟨hi.aside, by simp⟩

theorem Bridge.givesNone_step? {b b' : Bridge σ} {label : Bridge.Label} (hh : h.GivesNone)
    (hi : b.consumer.GivesNone) (hs : b.step? h label = some b') : b'.consumer.GivesNone := by
  cases (Bridge.step?_eq_some_iff.mp hs).2 with
  | consume hc => exact hi.step hh hc
  | loseConsumer hl =>
    obtain ⟨-, parts, rfl⟩ := Consumer.lose?_eq_some hl
    exact ⟨hi.aside, by simp⟩
  | letGo => exact ⟨hi.aside, hi.acts⟩
  | produce | raise | wake | publish => exact hi

end

/-- A bridge whose consumer takes a call and invokes the handler in two steps. -/
structure Custody (σ : Type) extends Supplied σ where
  taken? : Option Call := none
deriving DecidableEq, Repr

namespace Custody

inductive Label where
  | supplied (label : Supplied.Label)
  | take
  | invoke
deriving DecidableEq, Repr

/-- The steps of the task, which come to rest between a call's taking and its invocation. -/
def Label.isOfTask : Label → Bool
  | supplied (.bridge .consume) | supplied (.bridge .loseConsumer) | take => true
  | supplied _ | invoke => false

variable {σ : Type} [Feed σ] [Stock σ]

def take? (m : Custody σ) : Option (Custody σ) :=
  if m.bridge.consumer.place = .receiving then
    m.bridge.link.queue.take?.map fun (call, q) =>
      { m with
        bridge := { m.bridge with link := { m.bridge.link with queue := q } }
        taken? := some call }
  else none

def invoke? (h : Handler) (m : Custody σ) : Option (Custody σ) :=
  m.taken?.map fun call =>
    { m with
      bridge :=
        { m.bridge with
          link := m.bridge.link.note [.handling call.record]
          consumer :=
            { m.bridge.consumer with
              place := .handling call true (h m.bridge.consumer.invocations call.record)
              invocations := m.bridge.consumer.invocations + 1 } }
      taken? := none }

def step? (h : Handler) (m : Custody σ) (label : Label) : Option (Custody σ) :=
  if m.bridge.abort?.isSome || (m.taken?.isSome && label.isOfTask) then none
  else match label with
    | .supplied label => (m.toSupplied.step? h label).map fun s => { m with toSupplied := s }
    | .take => m.take?
    | .invoke => m.invoke? h

def run? (h : Handler) (m : Custody σ) : List Label → Option (Custody σ)
  | [] => some m
  | label :: rest => (m.step? h label).bind fun next => next.run? h rest

/-- Taking a call and invoking the handler are together what the consumer does in one step. -/
theorem run?_take_invoke (h : Handler) {m : Custody σ} (hm : m.taken? = none)
    (hp : m.bridge.consumer.place = .receiving) (hq : m.bridge.link.queue.calls ≠ []) :
    m.run? h [.take, .invoke] = m.step? h (.supplied (.bridge .consume)) := by
  obtain ⟨⟨b, hands⟩, taken?⟩ := m
  cases hm
  replace hp : b.consumer.place = .receiving := hp
  cases ha : b.abort? with
  | some e => simp [run?, step?, ha]
  | none =>
    cases hcalls : b.link.queue.calls with
    | nil => exact (hq hcalls).elim
    | cons call rest =>
      have htake : b.link.queue.take? = some (call, { b.link.queue with calls := rest }) := by
        simp [CallQueue.take?, hcalls]
      have hside : b.consumer.step? h b.exit? b.link = some
          ({ b.consumer with
              place := .handling call true (h b.consumer.invocations call.record)
              invocations := b.consumer.invocations + 1 },
            { b.link with queue := { b.link.queue with calls := rest } }.note
              [.handling call.record]) :=
        Consumer.step?_eq_some_iff.mpr (.take hp htake)
      have hdead : ∀ l : Link σ, Bridge.abort? { b with link := l } = none := fun _ => ha
      simp [run?, step?, take?, invoke?, hp, htake, ha, hdead, Label.isOfTask, Supplied.step?,
        Bridge.step?, Bridge.consume?, hside]

inductive Whereabouts where
  | caller
  | source
  | producer
  | queue
  | taken
  | handler
  /-- With someone to whom the handler gave the record for good. -/
  | outside
  | released
deriving DecidableEq, Repr

def Whereabouts.all : List Whereabouts :=
  [caller, source, producer, queue, taken, handler, outside, released]

def recordsAt (m : Custody σ) : Whereabouts → List Record
  | .caller => m.hands
  | .source => Stock.held m.bridge.link.feed
  | .producer => (m.bridge.producer.map (·.place.records)).getD []
  | .queue => m.bridge.link.queue.records
  | .taken => (m.taken?.map (·.record)).toList
  | .handler => m.bridge.consumer.records
  | .outside => m.bridge.consumer.aside
  | .released => Event.releases m.bridge.link.trace

def records (m : Custody σ) : List Record := Whereabouts.all.flatMap m.recordsAt

variable {h : Handler} {m m' : Custody σ}

theorem copies_records (m : Custody σ) (s : Nat) :
    copies s m.records = copies s (m.toSupplied.records ++ m.recordsAt .taken) := by
  simp [records, Whereabouts.all, recordsAt, Supplied.records, Bridge.records, Link.records]
  omega

/-- While a call is taken and not invoked the task is where it took it. -/
def IsPoised (m : Custody σ) : Prop := m.taken?.isSome → m.bridge.consumer.place = .receiving

theorem place_supplied_step? {s s' : Supplied σ} {label : Supplied.Label}
    (hl : Label.isOfTask (.supplied label) = false) (hs : s.step? h label = some s') :
    s'.bridge.consumer.place = s.bridge.consumer.place := by
  cases label with
  | bridge label =>
    obtain ⟨b, hb, rfl⟩ := Option.map_eq_some_iff.mp hs
    cases (Bridge.step?_eq_some_iff.mp hb).2 with
    | consume | loseConsumer => cases hl
    | produce | raise | wake | publish | letGo => rfl
  | supply x =>
    obtain ⟨d, -, -, rfl⟩ := Supplied.step?_supply hs
    rfl

theorem step?_eq_some {label : Label} (hs : m.step? h label = some m') :
    (label.isOfTask → m.taken? = none) ∧ match label with
      | .supplied label =>
        ∃ s, m.toSupplied.step? h label = some s ∧ m' = { m with toSupplied := s }
      | .take => m.take? = some m'
      | .invoke => m.invoke? h = some m' := by
  simp only [step?, Option.ite_none_left_eq_some] at hs
  obtain ⟨hfree, hs⟩ := hs
  constructor
  · intro hl
    cases htaken : m.taken? with
    | none => rfl
    | some call => simp [htaken, hl] at hfree
  · cases label with
    | supplied label =>
      obtain ⟨s, hs, hm⟩ := Option.map_eq_some_iff.mp hs
      exact ⟨s, hs, hm.symm⟩
    | take | invoke => exact hs

theorem IsPoised.step? {label : Label} (hi : m.IsPoised) (hs : m.step? h label = some m') :
    m'.IsPoised := by
  obtain ⟨hfree, hside⟩ := step?_eq_some hs
  cases label with
  | supplied label =>
    obtain ⟨s, hside, rfl⟩ := hside
    intro htaken
    have hl : Label.isOfTask (.supplied label) = false := by
      cases hl : Label.isOfTask (.supplied label) with
      | false => rfl
      | true =>
        replace htaken : m.taken?.isSome := htaken
        rw [hfree hl] at htaken
        cases htaken
    exact (place_supplied_step? hl hside).trans (hi htaken)
  | take =>
    simp only [take?, Option.ite_none_right_eq_some, Option.map_eq_some_iff] at hside
    obtain ⟨hp, next, -, rfl⟩ := hside
    exact fun _ => hp
  | invoke =>
    obtain ⟨call, -, rfl⟩ := Option.map_eq_some_iff.mp hside
    intro htaken
    cases htaken

theorem conserved_step? {label : Label} (hi : m.IsPoised) (hs : m.step? h label = some m') :
    Conserved (Stock.made m.bridge.link.feed) (Stock.made m'.bridge.link.feed) m.records
      m'.records := by
  obtain ⟨hfree, hs⟩ := step?_eq_some hs
  cases label with
  | supplied label =>
    obtain ⟨next, hn, rfl⟩ := hs
    have hconserved := Supplied.conserved_step? hn
    apply hconserved.within
    intro s
    rw [copies_records, copies_records]
    simp [recordsAt]
    omega
  | take =>
    simp only [take?, Option.ite_none_right_eq_some, Option.map_eq_some_iff] at hs
    obtain ⟨-, ⟨call, q⟩, hq, rfl⟩ := hs
    obtain ⟨rest, hcalls, rfl⟩ := CallQueue.take?_eq_some hq
    apply Conserved.of_copies_eq
    intro s
    rw [copies_records, copies_records]
    simp [recordsAt, hfree rfl, Supplied.records, Bridge.records, Link.records,
      CallQueue.records, hcalls]
    omega
  | invoke =>
    obtain ⟨call, hc, rfl⟩ := Option.map_eq_some_iff.mp hs
    have hp := hi (by rw [hc]; rfl)
    apply Conserved.of_copies_eq
    intro s
    rw [copies_records, copies_records]
    simp [recordsAt, hc, hp, Supplied.records, Bridge.records, Link.records, Consumer.records]
    omega

theorem orderly_step? {label : Label} (hi : m.bridge.Orderly) (hs : m.step? h label = some m') :
    m'.bridge.Orderly := by
  obtain ⟨-, hside⟩ := step?_eq_some hs
  cases label with
  | supplied label =>
    obtain ⟨s, hside, rfl⟩ := hside
    exact Supplied.orderly_step? hi hside
  | take =>
    simp only [take?, Option.ite_none_right_eq_some, Option.map_eq_some_iff] at hside
    obtain ⟨hp, next, -, rfl⟩ := hside
    exact ⟨hi.source, hi.handler, fun hc => by simp [hp] at hc⟩
  | invoke =>
    obtain ⟨call, -, rfl⟩ := Option.map_eq_some_iff.mp hside
    exact ⟨hi.source, fun hc => hc.elim, fun hc => hc.elim⟩

/-- What a run keeps, and that it neither loses nor doubles a record. -/
theorem conserved_run? {labels : List Label} (hi : m.IsPoised) (ho : m.bridge.Orderly)
    (hr : m.run? h labels = some m') :
    m'.IsPoised ∧ m'.bridge.Orderly ∧ Conserved (Stock.made m.bridge.link.feed)
      (Stock.made m'.bridge.link.feed) m.records m'.records := by
  induction labels generalizing m with
  | nil =>
    cases hr
    exact ⟨hi, ho, .of_copies_eq fun _ => rfl⟩
  | cons label rest ih =>
    obtain ⟨next, hs, hr⟩ := Option.bind_eq_some_iff.mp hr
    obtain ⟨hi', ho', hrest⟩ := ih (hi.step? hs) (orderly_step? ho hs) hr
    exact ⟨hi', ho', (conserved_step? hi hs).trans hrest⟩

theorem givesNone_step? {label : Label} (hh : h.GivesNone) (hi : m.bridge.consumer.GivesNone)
    (hs : m.step? h label = some m') : m'.bridge.consumer.GivesNone := by
  obtain ⟨-, hside⟩ := step?_eq_some hs
  cases label with
  | supplied label =>
    obtain ⟨s, hside, rfl⟩ := hside
    cases label with
    | bridge label =>
      obtain ⟨b, hb, rfl⟩ := Option.map_eq_some_iff.mp hside
      exact Bridge.givesNone_step? hh hi hb
    | supply x =>
      obtain ⟨d, -, -, rfl⟩ := Supplied.step?_supply hside
      exact hi
  | take =>
    simp only [take?, Option.ite_none_right_eq_some, Option.map_eq_some_iff] at hside
    obtain ⟨-, next, -, rfl⟩ := hside
    exact hi
  | invoke =>
    obtain ⟨call, -, rfl⟩ := Option.map_eq_some_iff.mp hside
    exact ⟨hi.aside, hh _ _⟩

/-- Where the handler gives no record away, nobody outside of the bridge ever has one. -/
theorem recordsAt_outside_of_run? {labels : List Label} (hh : h.GivesNone)
    (hi : m.bridge.consumer.GivesNone) (hr : m.run? h labels = some m') :
    m'.recordsAt .outside = [] := by
  induction labels generalizing m with
  | nil =>
    cases hr
    exact hi.aside
  | cons label rest ih =>
    obtain ⟨next, hs, hr⟩ := Option.bind_eq_some_iff.mp hr
    exact ih (givesNone_step? hh hi hs) hr

structure AllGone (m : Custody σ) : Prop where
  callers : m.hands = []
  producer : ∀ p, m.bridge.producer = some p → p.exit?.isSome
  consumer : m.bridge.consumer.place = .gone

theorem AllGone.recordsAt (hm : m.AllGone) (hi : m.IsPoised) (ho : m.bridge.Orderly)
    {w : Whereabouts} (hr : w ≠ .released) (ha : w ≠ .outside) : m.recordsAt w = [] := by
  have hended : ∀ p, m.bridge.producer = some p → ∃ exit, p.place = .ended exit := by
    intro p hp
    have he := hm.producer p hp
    cases hplace : p.place <;> simp [Producer.exit?, hplace] at he
    exact ⟨_, rfl⟩
  cases w with
  | caller => exact hm.callers
  | source =>
    apply Stock.held_of_isSpent
    apply ho.source
    intro p hp
    obtain ⟨exit, hplace⟩ := hended p hp
    rw [hplace]
    rfl
  | producer =>
    cases hp : m.bridge.producer with
    | none => simp [Custody.recordsAt, hp]
    | some p =>
      obtain ⟨exit, hplace⟩ := hended p hp
      simp [Custody.recordsAt, hp, hplace]
  | queue =>
    have hcalls := (ho.receiver (by simp [hm.consumer])).1
    simp [Custody.recordsAt, CallQueue.records, hcalls]
  | taken =>
    cases ht : m.taken? with
    | none => simp [Custody.recordsAt, ht]
    | some call =>
      have hplace := hi (by rw [ht]; rfl)
      rw [hm.consumer] at hplace
      cases hplace
  | handler =>
    have hkept := ho.handler (by simp [hm.consumer])
    simp [Custody.recordsAt, Consumer.records, hm.consumer, hkept]
  | outside => exact (ha rfl).elim
  | released => exact (hr rfl).elim

/-- Every record that was made is in one place, once, and in the end it was released unless the
handler gave it away for good. -/
structure Owned (m : Custody σ) : Prop where
  one : ∀ s < Stock.made m.bridge.link.feed, ∃ w, copies s (m.recordsAt w) = 1 ∧
    ∀ w', w' ≠ w → copies s (m.recordsAt w') = 0
  unborn : ∀ s ≥ Stock.made m.bridge.link.feed, ∀ w, copies s (m.recordsAt w) = 0
  gone : m.AllGone → ∀ s < Stock.made m.bridge.link.feed,
    copies s (m.recordsAt .released) + copies s (m.recordsAt .outside) = 1

theorem Whereabouts.mem_all (w : Whereabouts) : w ∈ all := by
  cases w <;> simp [all]

theorem owned_of_conserved (hi : m.IsPoised) (ho : m.bridge.Orderly)
    (hm : Conserved 0 (Stock.made m.bridge.link.feed) [] m.records) : m.Owned := by
  have hrecords : ∀ s, copies s (Whereabouts.all.flatMap m.recordsAt) =
      if s < Stock.made m.bridge.link.feed then 1 else 0 := by
    intro s
    have hcopies := hm.copies s
    rw [records] at hcopies
    rw [← hcopies]
    simp [born]
  refine ⟨fun s hs => ?_, fun s hs w => ?_, fun hgone s hs => ?_⟩
  · have hone := hrecords s
    rw [if_pos hs] at hone
    obtain ⟨w, -, hw, hothers⟩ := Record.exists_one_of_copies_flatMap hone
    exact ⟨w, hw, fun w' hne => hothers w' (Whereabouts.mem_all w') hne⟩
  · have hnone := hrecords s
    rw [if_neg (Nat.not_lt.mpr hs), Record.copies_flatMap_eq_zero_iff] at hnone
    exact hnone w (Whereabouts.mem_all w)
  · have hone := hrecords s
    rw [if_pos hs] at hone
    have hempty {w : Whereabouts} := hgone.recordsAt hi ho (w := w)
    simp [Whereabouts.all, hempty] at hone
    omega

end Custody

variable {σ : Type} [Feed σ] [Stock σ]

omit [Stock σ] in
theorem Source.givesNone_create (s : Source σ) (config : ThreadRequest) (taken : UInt32)
    (es : List Event) : (s.create config taken es).bridge.consumer.GivesNone := by
  cases hc : (s.create config taken es).failure? with
  | some failure =>
    obtain ⟨l, g, -, hremains⟩ := s.failing_of_failure config taken es hc
    rw [hremains]
    exact ⟨rfl, List.not_mem_nil⟩
  | none =>
    rw [s.create_eq config taken es hc]
    exact ⟨rfl, List.not_mem_nil⟩

section Runs

variable {s : Source σ} {before : List Supply} {d : Depot σ} {config : ThreadRequest}
  {taken : UInt32} {h : Handler} {b : Bridge σ} {labels : List Custody.Label} {m : Custody σ}

theorem Custody.conserved_of_run (hs : Stock.Fresh s.feed)
    (hd : Depot.supplyAll? { feed := s.feed } before = some d)
    (hb : b = ({ s with feed := d.feed }.create config taken d.noted).bridge ∨
      b = ({ s with feed := d.feed }.createOutside taken d.noted).bridge)
    (hr : run? h { bridge := b, hands := d.hands } labels = some m) :
    m.IsPoised ∧ m.bridge.Orderly ∧ Conserved 0 (Stock.made m.bridge.link.feed) [] m.records := by
  have haccounts : b.Accounts d.feed d.noted := by
    rcases hb with rfl | rfl
    · exact Source.accounts_create { s with feed := d.feed } config taken d.noted
    · exact Source.accounts_createOutside { s with feed := d.feed } taken d.noted
  have hbegin : Conserved 0 (Stock.made b.link.feed) []
      (records { bridge := b, hands := d.hands }) := by
    have hsupplied := haccounts.conserved_begin hs hd
    refine ⟨hsupplied.le, fun n => ?_⟩
    rw [copies_records]
    simpa [recordsAt] using hsupplied.copies n
  obtain ⟨hi, ho, hrun⟩ := conserved_run? (fun ht => by cases ht) haccounts.orderly hr
  exact ⟨hi, ho, hbegin.trans hrun⟩

/-- **Released once**: where the handler gives no record away for good, each record that was made
has been released exactly once when all who could have it have gone. -/
theorem Custody.released_once_of_run (hs : Stock.Fresh s.feed)
    (hd : Depot.supplyAll? { feed := s.feed } before = some d)
    (hb : b = ({ s with feed := d.feed }.create config taken d.noted).bridge ∨
      b = ({ s with feed := d.feed }.createOutside taken d.noted).bridge)
    (hr : run? h { bridge := b, hands := d.hands } labels = some m) (hh : h.GivesNone)
    (hgone : m.AllGone) :
    ∀ n < Stock.made m.bridge.link.feed, copies n (m.recordsAt .released) = 1 := by
  have hnone : b.consumer.GivesNone := by
    rcases hb with rfl | rfl
    · exact Source.givesNone_create { s with feed := d.feed } config taken d.noted
    · exact ⟨rfl, List.not_mem_nil⟩
  have houtside := recordsAt_outside_of_run? hh hnone hr
  obtain ⟨hi, ho, hm⟩ := conserved_of_run hs hd hb hr
  intro n hn
  have hone := (owned_of_conserved hi ho hm).gone hgone n hn
  simpa [houtside] using hone

end Runs

/-- Whatever callers do before and after its creation and in whatever way it ends, a bridge, or what
is left of one, has each record that was made in one place. -/
theorem Custody.owned_of_run (s : Source σ) (hs : Stock.Fresh s.feed) {before : List Supply}
    {d : Depot σ} (hd : Depot.supplyAll? { feed := s.feed } before = some d)
    (config : ThreadRequest) (taken : UInt32) (h : Handler) {b : Bridge σ}
    (hb : b = ({ s with feed := d.feed }.create config taken d.noted).bridge ∨
      b = ({ s with feed := d.feed }.createOutside taken d.noted).bridge)
    {labels : List Label} {m : Custody σ}
    (hr : run? h { bridge := b, hands := d.hands } labels = some m) : m.Owned := by
  obtain ⟨hi, ho, hm⟩ := conserved_of_run hs hd hb hr
  exact owned_of_conserved hi ho hm

namespace Custody

def fiveRecordsBefore : List Supply := [.make 5, .send 0 ⟨5, 0⟩, .ask (.publish 0 6)]

/-- The first record is handled and kept, two wait when the source closes over a stop, and two come
back to their callers. -/
def fiveRecordsLabels : List Label :=
  [.supplied (.bridge .consume)] ++
    List.replicate 4 (.supplied (.bridge .produce)) ++
    [.take, .supplied (.supply (.make 7)), .supplied (.bridge .raise), .invoke] ++
    List.replicate 3 (.supplied (.bridge .consume)) ++
    [.supplied (.supply (.ask (.publish 0 8))), .supplied (.supply (.send 0 ⟨7, 2⟩)),
      .supplied (.bridge .wake)] ++
    List.replicate 2 (.supplied (.bridge .produce)) ++
    [.supplied (.supply (.make 9)), .supplied (.supply (.send 0 ⟨9, 4⟩)),
      .supplied (.supply (.discard ⟨9, 4⟩))] ++
    List.replicate 3 (.supplied (.bridge .produce)) ++
    List.replicate 7 (.supplied (.bridge .consume))

def fiveRecordsDepot : Depot Channel :=
  (Depot.supplyAll? { feed := {} } fiveRecordsBefore).getD { feed := {} }

def fiveRecordsBegin : Custody Channel :=
  { bridge :=
      (({ feed := fiveRecordsDepot.feed } : Source Channel).create {} 0
        fiveRecordsDepot.noted).bridge
    hands := fiveRecordsDepot.hands }

theorem owned_fiveRecords :
    ∃ m, run? (fun _ _ => [.keep]) fiveRecordsBegin fiveRecordsLabels = some m ∧
      Stock.made m.bridge.link.feed = 5 ∧ m.AllGone ∧ m.recordsAt .outside = [] ∧
      m.recordsAt .released = [⟨8, 3⟩, ⟨6, 1⟩, ⟨7, 2⟩, ⟨9, 4⟩, ⟨5, 0⟩] ∧ m.Owned := by
  have hfresh : Stock.Fresh ({} : Channel) := ⟨rfl, rfl⟩
  have hd : Depot.supplyAll? { feed := ({} : Channel) } fiveRecordsBefore =
      some fiveRecordsDepot := by decide +kernel
  have hends : (run? (fun _ _ => [.keep]) fiveRecordsBegin fiveRecordsLabels).map
      (fun m => (m.hands, m.bridge.exit?, m.bridge.consumer.place)) =
        some ([], some (.endOfStream, 1), .gone) := by decide +kernel
  have hcounts : (run? (fun _ _ => [.keep]) fiveRecordsBegin fiveRecordsLabels).map
      (fun m => (Stock.made m.bridge.link.feed, m.recordsAt .outside, m.recordsAt .released)) =
        some (5, [], [⟨8, 3⟩, ⟨6, 1⟩, ⟨7, 2⟩, ⟨9, 4⟩, ⟨5, 0⟩]) := by decide +kernel
  obtain ⟨m, hr, hm⟩ := Option.map_eq_some_iff.mp hends
  simp only [Prod.mk.injEq] at hm
  obtain ⟨hhands, hexit, hplace⟩ := hm
  rw [hr, Option.map_some, Option.some.injEq] at hcounts
  simp only [Prod.mk.injEq] at hcounts
  obtain ⟨hmade, houtside, hreleased⟩ := hcounts
  refine ⟨m, hr, hmade, ⟨hhands, fun p hp => ?_, hplace⟩, houtside, hreleased,
    owned_of_run ({ feed := {} } : Source Channel) hfresh hd {} 0 _ (.inl rfl) hr⟩
  rw [Bridge.exit?_of_producer hp] at hexit
  cases he : p.exit? with
  | none => simp [he] at hexit
  | some exit => rfl

end Custody

end Handoff
