import Handoff.Proofs.Finalizing
import Handoff.Script

/-! What a consumer owes to those who call him and to the one who waits for his completion, whenever
his context comes and whatever his handler does. -/
namespace Handoff

namespace Consumer

/-- The steps that the calls in the queue will take, the first of them in the invocation with some
number. -/
def load (h : Handler) : Nat → List Call → Nat
  | _, [] => 0
  | n, call :: rest => Act.weights (h n call.record) + 3 + load h (n + 1) rest

variable {σ : Type} [Feed σ] {h : Handler} {exit? : Option (Exit × Nat)} {c c' : Consumer}
  {l l' : Link σ}

/-- Every step of a consumer brings him closer to where he waits or is gone. -/
theorem Step.load_lt (hs : c.Step h exit? l c' l') :
    c'.place.rank + load h c'.invocations l'.queue.calls <
      c.place.rank + load h c.invocations l.queue.calls := by
  cases hs with
  | take hp hq =>
    obtain ⟨rest, hcalls, rfl⟩ := CallQueue.take?_eq_some hq
    simp only [hp, hcalls, Link.queue_note, Place.rank, load]
    omega
  | @act call isHeld a rest hp =>
    have hrank := c.act_rank l call isHeld rest a
    rw [(c.act_aside l call isHeld rest a).queue, (c.act_frame l call isHeld rest a).1, hp]
    omega
  | @drop part rest hp =>
    rw [(c.dropPart_frame l part).1, hp]
    cases part with
    | context | handler => simp [dropPart, Place.rank]
    | receiver =>
      simp only [dropPart, Place.rank, Link.queue_note, CallQueue.dropReceiver, load,
        List.length_cons]
      omega
  | begin hp | drained hp | finish hp | answer hp | unwind hp | join hp | giveUp hp | judge hp
  | resolve hp | leave hp =>
    simp [hp, Place.rank, Act.weights, CallQueue.answer]

end Consumer

namespace Service

variable {σ : Type} {h : Handler} {m m' : Service σ} {label : Label}

def records (m : Service σ) : List Record := m.callers.map (·.record)

def passed (m : Service σ) : List Record := (Tally.ofTrace m.link.trace).passed

def returned (m : Service σ) : List Record := (Tally.ofTrace m.link.trace).returned

/-- How many steps are left, unless something else comes to it. -/
def rank (h : Handler) (m : Service σ) : Nat :=
  (m.callers.map Caller.rank).sum +
    (m.consumer.place.rank + Consumer.load h m.consumer.invocations m.link.queue.calls)

variable [Feed σ]

theorem rank_step (hl : label.isInner) (hs : Step h m label m') : m'.rank h < m.rank h := by
  cases hs with
  | accept | refuse | release | send | withdraw | endThread => cases hl
  | @goOn i c c' q rs hc hs =>
    obtain ⟨-, answers, rfl⟩ := Caller.step?_frame hs
    have hsum := Exchange.rank_callers hc c'
    have hrank := Caller.rank_step hs
    simp only [rank, Link.queue_note]
    omega
  | consume hs =>
    have hload := hs.load_lt
    simp only [rank]
    omega

theorem rank_run {labels : List Label} (hl : ∀ label ∈ labels, label.isInner)
    (hr : m.run? h labels = some m') : m'.rank h + labels.length ≤ m.rank h := by
  induction labels generalizing m with
  | nil =>
    cases hr
    exact Nat.le_refl _
  | cons label rest ih =>
    obtain ⟨next, hs, hr⟩ := Option.bind_eq_some_iff.mp hr
    obtain ⟨hlabel, hrest⟩ := List.forall_mem_cons.mp hl
    have hfirst := rank_step hlabel (step_of_step? hs)
    have hlast := ih hrest hr
    rw [List.length_cons]
    omega

/-- What holds of the consumer at every moment. -/
structure Sound (h : Handler) (m : Service σ) : Prop where
  paced : m.consumer.Paced h (.ofTrace m.link.trace)
  lined : Lined m.records m.link.queue m.consumer.panic? (.ofTrace m.link.trace)
  closed : m.consumer.Closed m.link.queue
  attached : m.consumer.Attached m.link.queue
  tendered : Tendered m.offer m.exit? m.consumer m.link.trace

omit [Feed σ] in
theorem sound_start (f : σ) : (start f).Sound h where
  paced := ⟨rfl, by simp [start, Tally.ofTrace], rfl, rfl⟩
  lined := ⟨⟨[], rfl, fun _ => rfl⟩, fun _ => rfl⟩
  closed := fun _ hplace => by simp [start] at hplace
  attached := ⟨rfl, by simp [start]⟩
  tendered := ⟨.held, rfl, rfl⟩

namespace Sound

omit [Feed σ] in
theorem call (hi : m.Sound h) {c : Caller} {q : CallQueue}
    (hsender : m.link.queue.hasSender = true) (hq : q.hasReceiver = m.link.queue.hasReceiver)
    (hcalls :
      (q.hasReceiver = true ∧ ∃ ticket, q.calls = m.link.queue.calls ++ [⟨ticket, c.record⟩]) ∨
        (q.hasReceiver = false ∧ q.calls = m.link.queue.calls)) :
    Sound h { m with link := { m.link with queue := q }, callers := m.callers ++ [c] } where
  paced := hi.paced
  lined := by
    obtain ⟨⟨others, hrecords, hothers⟩, hnone⟩ := hi.lined
    have hnew : records { m with link := { m.link with queue := q }, callers := m.callers ++ [c] } =
        m.records ++ [c.record] := List.map_append
    rw [hnew, hrecords]
    rcases hcalls with ⟨hr, ticket, hcalls⟩ | ⟨hr, hcalls⟩
    · refine ⟨⟨[], ?_, fun _ => rfl⟩, fun hr' => ?_⟩
      · have hnil := hothers (.inl (hq ▸ hr))
        simp [hcalls, hnil]
      · simp [hr] at hr'
    · refine ⟨⟨others ++ [c.record], ?_, fun hkept => ?_⟩, fun _ => ?_⟩
      · simp [hcalls]
      · -- as long as no invocation has panicked the receiver stays longer than the sender
        have hpanic : m.consumer.panic? = none := by simpa [hr] using hkept
        have hgone : m.consumer.place.hasReceiver = false := by
          rw [← hi.attached.receiver, ← hq, hr]
        have hleaving : m.consumer.place.isLeaving := by
          cases hp : m.consumer.place <;> simp_all
        have hclosed := (hi.closed hpanic (.inr hleaving)).1
        rw [hsender] at hclosed
        cases hclosed
      · rw [hcalls]
        exact hnone (hq ▸ hr)
  closed := fun hpanic hplace => by
    have hclosed := (hi.closed hpanic hplace).1
    rw [hsender] at hclosed
    cases hclosed
  attached := ⟨hq.trans hi.attached.receiver, hi.attached.parts⟩
  tendered := hi.tendered

omit [Feed σ] in
theorem caller (hi : m.Sound h) {i : Nat} {c c' : Caller} {q : CallQueue} {rs : List Record}
    (hc : m.callers[i]? = some c) (hs : c.step? m.link.queue = some (c', q, rs)) :
    Sound h
      { m with
        link := { m.link with queue := q }.note (Event.releasing rs)
        callers := m.callers.set i c' } := by
  obtain ⟨hrecord, answers, rfl⟩ := Caller.step?_frame hs
  have hrecords : (m.callers.set i c').map (·.record) = m.records := by
    obtain ⟨hlt, heq⟩ := List.getElem?_eq_some_iff.mp hc
    have hlt' : i < (m.callers.map (·.record)).length := by simpa using hlt
    have hsame : c'.record = (m.callers.map (·.record))[i] := by
      rw [List.getElem_map, heq, hrecord]
    rw [List.map_set, hsame, List.set_getElem_self, records]
  have htally :
      Tally.ofTrace (m.link.trace ++ Event.releasing rs) = Tally.ofTrace m.link.trace := by
    simp
  have htrace : (Link.note { m.link with
      queue := { m.link.queue with answers := answers } } (Event.releasing rs)).trace =
        m.link.trace ++ Event.releasing rs := Link.trace_note _ _
  refine ⟨?_, ?_, hi.closed, ⟨hi.attached.receiver, hi.attached.parts⟩, ?_⟩
  · rw [htrace, htally]
    exact hi.paced
  · rw [records, hrecords, htrace, htally]
    exact ⟨hi.lined.records, hi.lined.calls⟩
  · rw [htrace]
    exact hi.tendered.grow (joins_releasing rs) htally

theorem step (hi : m.Sound h) (hs : Step h m label m') : m'.Sound h := by
  cases hs with
  | @accept id hsender hr => exact hi.call hsender rfl (.inl ⟨hr, _, rfl⟩)
  | @refuse id hsender hr => exact hi.call hsender rfl (.inr ⟨hr, rfl⟩)
  | goOn hc hs => exact hi.caller hc hs
  | release hsender hc =>
    exact ⟨hi.paced, ⟨hi.lined.records, hi.lined.calls⟩,
      fun hpanic hplace => ⟨rfl, (hi.closed hpanic hplace).2⟩,
      ⟨hi.attached.receiver, hi.attached.parts⟩, hi.tendered⟩
  | @send g ho =>
    have htendered := hi.tendered
    rw [ho] at htendered
    have hsent := htendered.send g
    obtain ⟨context, signal, heq⟩ := m.consumer.getD_sendContext? g
    rw [heq] at hsent ⊢
    exact ⟨⟨hi.paced.invocations, hi.paced.calm, hi.paced.stands⟩, hi.lined, hi.closed,
      ⟨hi.attached.receiver, hi.attached.parts⟩, hsent⟩
  | withdraw ho =>
    have htendered := hi.tendered
    rw [ho] at htendered
    have hlost := htendered.withdraw
    obtain ⟨context, heq⟩ := m.consumer.getD_loseContext?
    rw [heq] at hlost ⊢
    exact ⟨⟨hi.paced.invocations, hi.paced.calm, hi.paced.stands⟩, hi.lined, hi.closed,
      ⟨hi.attached.receiver, hi.attached.parts⟩, hlost⟩
  | endThread he =>
    have htendered := hi.tendered
    rw [he] at htendered
    exact ⟨hi.paced, hi.lined, hi.closed, hi.attached, htendered.endThread _⟩
  | consume hs =>
    exact ⟨hi.paced.consume hs, hi.lined.consume hi.closed hs, hi.closed.consume hi.paced hs,
      hi.attached.consume hs, hi.tendered.consume hi.paced hi.attached hs⟩

theorem run {labels : List Label} (hi : m.Sound h) (hr : m.run? h labels = some m') :
    m'.Sound h := by
  rw [run?_eq_foldlM] at hr
  exact foldlM_keeps (fun _ _ _ _ hi hs => hi.step (step_of_step? hs)) hi hr

end Sound

def IsAtRest (h : Handler) (m : Service σ) : Prop :=
  ∀ label : Label, label.isInner → m.step? h label = none

/-- What a consumer waits for that cannot go on. -/
inductive Waits (m : Service σ) : Prop where
  | calls (hp : m.consumer.place = .receiving) (hs : m.link.queue.hasSender = true)
  | context (hp : m.consumer.place = .awaiting) (ho : m.offer = .held)
  | thread {g} (hp : m.consumer.place = .joining g) (he : m.exit? = none)
  | nothing (hp : m.consumer.place = .gone)

namespace Sound

theorem waits (hi : m.Sound h) (hrest : m.IsAtRest h) :
    m.Waits ∧ m.link.queue.calls = [] ∧ m.consumer.place.ticket? = none ∧
      (m.consumer.panic?.isSome → m.consumer.place = .gone) := by
  have hstep : m.consumer.step? h m.exit? m.link = none := by
    simpa [step?] using hrest .consume rfl
  have hstands := hi.paced.stands
  unfold Consumer.Stands at hstands
  cases Consumer.stuck_of_step?_eq_none hstep with
  | receiving hp hq hs =>
    rw [hp] at hstands
    exact ⟨.calls hp hs, hq, by rw [hp]; rfl, fun hsome => by simp [hstands.panic] at hsome⟩
  | awaiting hp hc =>
    rw [hp] at hstands
    have hclosed := hi.closed hstands.panic (.inl (by rw [hp]; rfl))
    have htendered := hi.tendered
    simp only [Tendered, hp, hc] at htendered
    have hoffer : m.offer = .held := by
      generalize m.offer = offer at htendered
      cases htendered.context
      rfl
    exact ⟨.context hp hoffer, hclosed.2, by rw [hp]; rfl,
      fun hsome => by simp [hstands.panic] at hsome⟩
  | joining hp he =>
    rw [hp] at hstands
    have hclosed := hi.closed hstands.panic (.inl (by rw [hp]; rfl))
    exact ⟨.thread hp he, hclosed.2, by rw [hp]; rfl, fun hsome => by simp [hstands.panic] at hsome⟩
  | gone hp =>
    have hreceiver := hi.attached.receiver
    rw [hp] at hreceiver
    exact ⟨.nothing hp, hi.lined.calls hreceiver, by rw [hp]; rfl, fun _ => hp⟩

omit [Feed σ] in
theorem passed_isPrefix (hi : m.Sound h) : m.passed <+: m.records := by
  obtain ⟨others, hrecords, -⟩ := hi.lined.records
  rw [hrecords, List.append_assoc]
  exact List.prefix_append _ _

omit [Feed σ] in
/-- Whoever has come to the end of his loop in peace has handled all there ever was. -/
theorem returned_eq (hi : m.Sound h) (hpanic : m.consumer.panic? = none)
    (hp : m.consumer.place.isClosing ∨ m.consumer.place.isLeaving) :
    m.link.queue.hasSender = false ∧ m.link.queue.calls = [] ∧ m.returned = m.records := by
  obtain ⟨hsender, hcalls⟩ := hi.closed hpanic hp
  obtain ⟨others, hrecords, hothers⟩ := hi.lined.records
  have hpassed : m.passed = m.returned := by
    rcases hi.paced.stands.cases with hwhole | hbroken | ⟨-, call, isHeld, acts, hplace, -⟩
    · exact hwhole.passed
    · have hsome := hbroken.panic
      simp [hpanic] at hsome
    · simp [hplace] at hp
  refine ⟨hsender, hcalls, ?_⟩
  rw [hrecords, hothers (.inr hpanic), hcalls, List.map_nil, List.append_nil, List.append_nil]
  exact hpassed.symm

omit [Feed σ] in
theorem returned_isPrefix (hi : m.Sound h) : m.returned <+: m.passed := by
  rw [passed]
  rcases hi.paced.stands.cases with hwhole | hbroken | ⟨-, call, isHeld, acts, -, hpassed⟩
  · rw [hwhole.passed]
    exact List.prefix_rfl
  · obtain ⟨r, hr, -⟩ := hbroken.passed
    rw [hr]
    exact List.prefix_append _ _
  · rw [hpassed]
    exact List.prefix_append _ _

omit [Feed σ] in
theorem leaves (hi : m.Sound h) (hp : m.consumer.place.isLeaving) :
    ∃ parts, (m.consumer.place = .gone → parts = []) ∧
      Leaves m.offer m.exit? m.consumer.panic? m.consumer.context m.consumer.signal m.link.trace
        parts := by
  have htendered := hi.tendered
  unfold Tendered at htendered
  split at htendered
  case h_9 parts hplace => exact ⟨parts, fun hgone => by simp [hplace] at hgone, htendered⟩
  case h_10 => exact ⟨[], fun _ => rfl, htendered⟩
  all_goals simp_all

omit [Feed σ] in
/-- Whoever leaves in peace has used his context, or there never was one. -/
theorem settles (hi : m.Sound h) (hpanic : m.consumer.panic? = none)
    (hp : m.consumer.place.isLeaving) :
    Settles m.offer m.exit? m.consumer.context m.consumer.signal m.link.trace := by
  obtain ⟨parts, -, hleaves⟩ := hi.leaves hp
  cases hleaves with
  | settled hnone hparts hs => exact hs
  | intact hsome | forsaken hsome => simp [hpanic] at hsome

omit [Feed σ] in
/-- Until the context is used nothing is joined, and then all that there ever was has been
handled. -/
theorem joins_cases (hi : m.Sound h) :
    joins m.link.trace = [] ∨ (m.consumer.panic? = none ∧
      (m.consumer.place.isClosing ∨ m.consumer.place.isLeaving) ∧
      ∃ v, Judges m.offer m.exit? m.link.trace v) := by
  by_cases hp : m.consumer.place.isLeaving
  · obtain ⟨parts, -, hleaves⟩ := hi.leaves hp
    cases hleaves with
    | settled hpanic hparts hs =>
      cases hs with
      | finalized hj => exact .inr ⟨hpanic, .inr hp, _, hj⟩
      | withdrawn ho hc hs hj => exact .inl hj
    | intact hpanic hparts hi => exact .inl hi.unjoined
    | forsaken hpanic hparts hf hj => exact .inl hj
  · have htendered := hi.tendered
    have hstands := hi.paced.stands
    unfold Tendered at htendered
    unfold Consumer.Stands at hstands
    cases hplace : m.consumer.place with
    | joining g =>
      rw [hplace] at htendered
      exact .inl htendered.2.2.2
    | resolving v =>
      rw [hplace] at htendered hstands
      exact .inr ⟨hstands.panic, .inl rfl, v, htendered.1⟩
    | leaving parts | gone => simp [hplace] at hp
    | fresh | receiving | handling _ _ _ | returning _ | unwinding _ | awaiting =>
      rw [hplace] at htendered
      exact .inl htendered.unjoined

end Sound

def IsFinalized (m : Service σ) (isOk : Bool) : Prop :=
  ∃ before after, m.link.trace = before ++ .joined isOk :: after ∧ joins before = [] ∧
    joins after = [] ∧ (Tally.ofTrace before).returned = m.records

omit [Feed σ] in
theorem Sound.isFinalized (hi : m.Sound h) {v : Completion}
    (hj : Judges m.offer m.exit? m.link.trace v) (hpanic : m.consumer.panic? = none)
    (hp : m.consumer.place.isClosing ∨ m.consumer.place.isLeaving) : m.IsFinalized v.isOk := by
  obtain ⟨before, after, heq, hbefore, hafter, htally⟩ := hj.joined
  obtain ⟨-, -, hreturned⟩ := hi.returned_eq hpanic hp
  exact ⟨before, after, heq, hbefore, hafter, by rw [htally]; exact hreturned⟩

/-- What a loop comes to in which no invocation has panicked so far. -/
structure Completes (m : Service σ) : Prop where
  /-- It ends when all threads have let go of the queue, all calls were handled, and the context was
  sent or never will be. -/
  ended : m.consumer.place.isLeaving → m.link.queue.hasSender = false ∧ m.link.queue.calls = [] ∧
    m.returned = m.records ∧ m.offer ≠ .held
  /-- By then it has finalized if the context was sent, -/
  finalized : m.consumer.place = .gone → ∀ g, m.offer = .sent g → ∃ exit n,
    m.exit? = some (exit, n) ∧ m.consumer.signal.value = some (.ofExit n g exit) ∧
      m.IsFinalized (Completion.ofExit n g exit).isOk
  /-- and it has not if it never will be. -/
  unfinalized : m.consumer.place = .gone → m.offer = .withdrawn →
    joins m.link.trace = [] ∧ m.consumer.signal.value = none

/-- What a loop comes to in which an invocation has panicked. -/
structure Breaks (h : Handler) (m : Service σ) : Prop where
  /-- It is the last one, -/
  panicked : ∃ r, m.passed = m.returned ++ [r] ∧ h.Panics m.returned.length r
  /-- and all calls before are told that they were handled, and its own that it was not. -/
  answered : ∀ (i : Nat) (c : Caller) (a : Answer), m.callers[i]? = some c → c.answer? = some a →
    (i < m.returned.length → a = .handled) ∧
      (i = m.returned.length → a = .failed .handlerAborted)
  unfinalized : joins m.link.trace = []
  destroyed : m.consumer.place = .gone → ∀ g, m.offer = .sent g →
    m.consumer.signal.value = some (.failed .consumerDropped)

omit [Feed σ] in
theorem Sound.completes (hi : m.Sound h) (hpanic : m.consumer.panic? = none) : m.Completes where
  ended hp := by
    obtain ⟨hsender, hcalls, hreturned⟩ := hi.returned_eq hpanic (.inr hp)
    exact ⟨hsender, hcalls, hreturned, (hi.settles hpanic hp).ne_held⟩
  finalized hp g ho := by
    have hleaving : m.consumer.place.isLeaving := by rw [hp]; rfl
    cases hi.settles hpanic hleaving with
    | @finalized v hj hc hs =>
      obtain ⟨g', exit, n, ho', he, rfl⟩ := hj.ended
      cases ho.symm.trans ho'
      exact ⟨exit, n, he, by rw [hs], hi.isFinalized hj hpanic (.inr hleaving)⟩
    | withdrawn ho' => simp [ho] at ho'
  unfinalized hp ho := by
    have hleaving : m.consumer.place.isLeaving := by rw [hp]; rfl
    cases hi.settles hpanic hleaving with
    | finalized hj =>
      obtain ⟨g, exit, n, ho', -⟩ := hj.ended
      simp [ho] at ho'
    | withdrawn ho' hc hs hj => exact ⟨hj, by rw [hs]⟩

namespace Mirrors

variable {e : Exchange}

omit [Feed σ] in
/-- The record of a call is among those of the first calls if the call is. -/
theorem mem_iff_lt (hm : m.Mirrors e) (hs : e.Sound) {rs : List Record} (hrs : rs <+: m.records)
    {i : Nat} {c : Caller} (hc : m.callers[i]? = some c) : c.record ∈ rs ↔ i < rs.length := by
  have hrecord {j : Nat} (hj : j < rs.length) : ∃ d, m.callers[j]? = some d ∧ d.record = rs[j] := by
    obtain ⟨more, hmore⟩ := hrs
    have hget : m.records[j]? = some rs[j] := by
      rw [← hmore, List.getElem?_append_left hj, List.getElem?_eq_getElem hj]
    rw [records, List.getElem?_map, Option.map_eq_some_iff] at hget
    exact hget
  have hserial {j : Nat} {d : Caller} (hd : m.callers[j]? = some d) : d.record.serial = j := by
    rw [← hm.callers] at hd
    exact hs.serial j d hd
  constructor
  · intro hmem
    obtain ⟨j, hj, heq⟩ := List.mem_iff_getElem.mp hmem
    obtain ⟨d, hd, hd'⟩ := hrecord hj
    have hij : i = j := by rw [← hserial hc, ← heq, ← hd', hserial hd]
    rw [hij]
    exact hj
  · intro hlt
    obtain ⟨d, hd, hd'⟩ := hrecord hlt
    cases hc.symm.trans hd
    rw [hd']
    exact List.getElem_mem hlt

end Mirrors

omit [Feed σ] in
theorem Sound.breaks {e : Exchange} (hi : m.Sound h) (hm : m.Mirrors e) (hs : e.Sound)
    (hpanic : m.consumer.panic?.isSome) : m.Breaks h := by
  have hbroken : Consumer.Broken h m.consumer.panic? (.ofTrace m.link.trace) := by
    rcases hi.paced.stands.cases with hwhole | hbroken | ⟨hnone, -⟩
    · simp [hwhole.panic] at hpanic
    · exact hbroken
    · simp [hnone] at hpanic
  obtain ⟨r, hpassed, hpanics⟩ := hbroken.passed
  have hreturned : m.returned <+: m.records := hi.returned_isPrefix.trans hi.passed_isPrefix
  refine ⟨⟨r, hpassed, hpanics⟩, fun i c a hc ha => ?_, ?_, fun hp g ho => ?_⟩
  · obtain ⟨hhandled, hgone⟩ := hm.truthful hs hc ha
    constructor
    · intro hlt
      exact hhandled.mpr ((hm.mem_iff_lt hs hreturned hc).mpr hlt)
    · intro heq
      have hnot : a ≠ .handled := fun h => by
        have hlt := (hm.mem_iff_lt hs hreturned hc).mp (hhandled.mp h)
        omega
      have hmem : c.record ∈ m.passed := by
        refine (hm.mem_iff_lt hs hi.passed_isPrefix hc).mpr ?_
        rw [passed, hpassed, List.length_append, List.length_singleton, heq]
        exact Nat.lt_succ_self _
      cases a with
      | handled => exact (hnot rfl).elim
      | failed e =>
        cases e with
        | consumerGone => exact (hgone rfl hmem).elim
        | handlerAborted => rfl
  · rcases hi.joins_cases with hnone | ⟨hnone, -⟩
    · exact hnone
    · simp [hnone] at hpanic
  · have hleaving : m.consumer.place.isLeaving := by rw [hp]; rfl
    obtain ⟨parts, hparts, hleaves⟩ := hi.leaves hleaving
    cases hparts hp
    cases hleaves with
    | settled hnone => simp [hnone] at hpanic
    | intact hsome hmem => simp at hmem
    | forsaken hsome hnot hf hj =>
      rw [ho] at hf
      cases hf with
      | sent hc hs => rw [hs]

/-- The consumer is gone, and so are the calls from some number on. -/
structure Late (n : Nat) (rs : List Record) (m : Service σ) : Prop where
  place : m.consumer.place = .gone
  receiver : m.link.queue.hasReceiver = false
  passed : m.passed = rs
  refused : ∀ (i : Nat) (c : Caller), n ≤ i → m.callers[i]? = some c → c.IsRefused

theorem Late.step {n : Nat} {rs : List Record} (hi : m.Late n rs) (hs : Step h m label m') :
    m'.Late n rs := by
  obtain ⟨hplace, hreceiver, hpassed, hrefused⟩ := hi
  cases hs with
  | accept hsender hr => simp [hreceiver] at hr
  | @refuse id hsender hr =>
    refine ⟨hplace, hreceiver, hpassed, fun i c hle hc => ?_⟩
    by_cases hlt : i < m.callers.length
    · rw [List.getElem?_append_left hlt] at hc
      exact hrefused i c hle hc
    · rw [List.getElem?_append_right (by omega), List.getElem?_singleton] at hc
      split at hc <;> cases hc
      trivial
  | @goOn j d d' q rs' hd hs =>
    obtain ⟨-, answers, rfl⟩ := Caller.step?_frame hs
    refine ⟨hplace, hreceiver, ?_, fun i c hle hc => ?_⟩
    · rw [← hpassed, Service.passed, Service.passed, Link.trace_note]
      simp
    · by_cases hij : j = i
      · subst hij
        rw [List.getElem?_set_self (List.getElem?_eq_some_iff.mp hd).1] at hc
        cases hc
        exact Caller.isRefused_step hs (hrefused j d hle hd)
      · rw [List.getElem?_set_ne hij] at hc
        exact hrefused i c hle hc
  | release hsender hc => exact ⟨hplace, hreceiver, hpassed, hrefused⟩
  | @send g ho =>
    obtain ⟨context, signal, heq⟩ := m.consumer.getD_sendContext? g
    rw [heq]
    exact ⟨hplace, hreceiver, hpassed, hrefused⟩
  | withdraw ho =>
    obtain ⟨context, heq⟩ := m.consumer.getD_loseContext?
    rw [heq]
    exact ⟨hplace, hreceiver, hpassed, hrefused⟩
  | endThread he => exact ⟨hplace, hreceiver, hpassed, hrefused⟩
  | consume hs => cases hs <;> simp_all

theorem Late.run {n : Nat} {rs : List Record} {labels : List Label} (hi : m.Late n rs)
    (hr : m.run? h labels = some m') : m'.Late n rs := by
  rw [run?_eq_foldlM] at hr
  exact foldlM_keeps (fun _ _ _ _ hi hs => hi.step (step_of_step? hs)) hi hr

/-- What holds at every moment, whenever the context comes and whatever the handler does. -/
structure Serves (h : Handler) (m : Service σ) : Prop where
  /-- The handler is given the records in the order of their pushes, -/
  ordered : m.passed <+: m.records
  /-- and an invocation that returns is one without a panic. -/
  returns : ∀ n r, m.returned[n]? = some r → ¬ h.Panics n r
  completes : m.consumer.panic? = none → m.Completes
  breaks : m.consumer.panic?.isSome → m.Breaks h
  /-- Nothing is joined twice, nor before all threads have let go of the queue and the last
  invocation has returned, nor without a context, nor after a panic. -/
  once : ∀ isOk, .joined isOk ∈ m.link.trace → m.IsFinalized isOk ∧
    m.link.queue.hasSender = false ∧ (∃ g, m.offer = .sent g) ∧ m.consumer.panic? = none
  /-- There is an end to what needs nobody else. -/
  bounded : ∀ more m', (∀ label ∈ more, label.isInner) → m.run? h more = some m' →
    m'.rank h + more.length ≤ m.rank h
  /-- Then all calls have returned, and the consumer waits for others or is gone. -/
  rest : m.IsAtRest h → m.Waits ∧ (∀ c ∈ m.callers, c.answer?.isSome) ∧
    (m.consumer.panic?.isSome → m.consumer.place = .gone)
  /-- Who calls when the consumer is gone is told so, and his record is never handled. -/
  late : m.consumer.place = .gone → ∀ more m', m.run? h more = some m' →
    ∀ (i : Nat) (c : Caller), m.callers.length ≤ i → m'.callers[i]? = some c →
      c.record ∉ m'.passed ∧ ∀ a, c.answer? = some a → a = .failed .consumerGone

/-- **A consumer finalizes exactly when it should**: once and after the last invocation if its
context is sent, before, between or after all calls, and not at all if it is not or if an invocation
panics. -/
theorem serves_of_run {f : σ} {labels : List Label} (hr : (start f).run? h labels = some m) :
    m.Serves h := by
  have hi := (sound_start f).run hr
  obtain ⟨done, e, he, hm⟩ := (mirrors_start f).run hr
  have hs := Exchange.sound_start.run he
  refine ⟨hi.passed_isPrefix, hi.paced.calm, hi.completes, hi.breaks hm hs, fun isOk hmem => ?_,
    fun more m' hl hr' => rank_run hl hr', fun hrest => ?_, fun hp more m' hr' i c hle hc => ?_⟩
  · have hjoined : isOk ∈ joins m.link.trace := List.mem_filterMap.mpr ⟨_, hmem, rfl⟩
    rcases hi.joins_cases with hnone | ⟨hpanic, hp, v, hj⟩
    · simp [hnone] at hjoined
    · rw [hj.joins_eq, List.mem_singleton] at hjoined
      obtain ⟨g, exit, n, ho, -⟩ := hj.ended
      rw [hjoined]
      exact ⟨hi.isFinalized hj hpanic hp, (hi.returned_eq hpanic hp).1, ⟨g, ho⟩, hpanic⟩
  · obtain ⟨hwaits, hcalls, hticket, hgone⟩ := hi.waits hrest
    exact ⟨hwaits, fun c hc => hm.returned_of_rest hs (fun i => hrest _ rfl) hcalls hticket hc,
      hgone⟩
  · have hreceiver := hi.attached.receiver
    rw [hp] at hreceiver
    have hlate : m.Late m.callers.length m.passed := by
      refine ⟨hp, hreceiver, rfl, fun j d hj hd => ?_⟩
      rw [List.getElem?_eq_none hj] at hd
      cases hd
    obtain ⟨-, -, hpassed, hrefused⟩ := hlate.run hr'
    obtain ⟨more', e', he', hm'⟩ := hm.run hr'
    constructor
    · intro hmem
      have hlt := (hm'.mem_iff_lt (hs.run he') (hi.run hr').passed_isPrefix hc).mp hmem
      have hlength := hi.passed_isPrefix.length_le
      rw [hpassed] at hlt
      rw [records, List.length_map] at hlength
      omega
    · intro a ha
      have hanswer := hrefused i c hle hc
      rw [Caller.IsRefused, Caller.answer?_eq_some_iff.mp ha] at hanswer
      exact hanswer

/-- Two calls are handled, the threads let go of the queue, and the context is sent when the
consumer waits for nothing else. -/
def lateContextLabels : List Label :=
  [.call 7, .consume, .consume, .call 8, .consume, .consume, .caller 0] ++
    List.replicate 3 .consume ++ [.caller 1, .release, .consume, .endThread .endOfStream 2,
      .sendContext 5] ++ List.replicate 6 .consume

/-- The second of three invocations panics, and the context is sent and a fourth call made when the
consumer is gone. -/
def panicLabels : List Label :=
  [.call 1, .call 2, .call 3] ++ List.replicate 11 .consume ++ [.sendContext 5, .call 4,
    .caller 0, .caller 1, .caller 2, .caller 3, .caller 3, .caller 3]

def panicHandler : Handler := fun n _ => if n = 1 then [.panic .other] else []

theorem serves_lateContexts :
    (∃ m, (start ({} : Script)).run? (fun _ _ => []) lateContextLabels = some m ∧
      m.consumer.place = .gone ∧ m.consumer.signal.value = some (.finished ⟨2, 5⟩) ∧
      joins m.link.trace = [true] ∧
      m.callers.map Caller.answer? = [some .handled, some .handled] ∧
      m.Serves fun _ _ => []) ∧
    ∃ m, (start ({} : Script)).run? panicHandler panicLabels = some m ∧
      m.consumer.place = .gone ∧
      m.consumer.signal.value = some (.failed .consumerDropped) ∧ joins m.link.trace = [] ∧
      m.callers.map Caller.answer? = [some .handled, some (.failed .handlerAborted),
        some (.failed .handlerAborted), some (.failed .consumerGone)] ∧
      m.Serves panicHandler := by
  have hlate : ((start ({} : Script)).run? (fun _ _ => []) lateContextLabels).map (fun m =>
      decide (m.consumer.place = .gone ∧ m.consumer.signal.value = some (.finished ⟨2, 5⟩) ∧
        joins m.link.trace = [true] ∧
        m.callers.map Caller.answer? = [some .handled, some .handled])) = some true := by
    decide +kernel
  have hpanic : ((start ({} : Script)).run? panicHandler panicLabels).map (fun m =>
      decide (m.consumer.place = .gone ∧
        m.consumer.signal.value = some (.failed .consumerDropped) ∧ joins m.link.trace = [] ∧
        m.callers.map Caller.answer? = [some .handled, some (.failed .handlerAborted),
          some (.failed .handlerAborted), some (.failed .consumerGone)])) = some true := by
    decide +kernel
  obtain ⟨m, hr, hm⟩ := Option.map_eq_some_iff.mp hlate
  obtain ⟨m', hr', hm'⟩ := Option.map_eq_some_iff.mp hpanic
  obtain ⟨hplace, hvalue, hjoins, hanswers⟩ := of_decide_eq_true hm
  obtain ⟨hplace', hvalue', hjoins', hanswers'⟩ := of_decide_eq_true hm'
  exact ⟨⟨m, hr, hplace, hvalue, hjoins, hanswers, serves_of_run hr⟩,
    m', hr', hplace', hvalue', hjoins', hanswers', serves_of_run hr'⟩

end Service

end Handoff
