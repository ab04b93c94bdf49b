import Handoff.Proofs.Departure
import Handoff.Proofs.Verdict

/-! What a channel accepts from its publishers, in order, and what becomes of it: a part is fetched,
and the rest waits or is let go of. -/
namespace Handoff

def Outcome.message? : Outcome → Option Message
  | record r => some (.record r)
  | failed report => some (.failure report)
  | endMarker | panicked _ => none

namespace Channel

/-- The message that a channel takes in when it is asked for something. -/
def accepted? (c : Channel) : Publishing → Option Message
  | .publish p id => if c.isAlive p && c.accepts then some (.record ⟨id, c.made⟩) else none
  | .fail p report => if c.isAlive p && c.isOpen then some (.failure report) else none
  | .isStopped _ | .clone _ | .finish _ | .unknown => none

/-- The messages that wait to be fetched; a wake-up is none of them. -/
def waiting (c : Channel) : List Message := c.messages.filter (· != .wake)

structure Takes (c : Channel) (x? : Option Message) (d : Channel) : Prop where
  isOpen : d.isOpen = c.isOpen
  isStopped : d.isStopped = c.isStopped
  messages : d.messages = c.messages ++ x?.toList
  sender : x?.isSome → c.isOpen ∧ c.hasPublisher
  hasPublisher : c.hasPublisher = false → d.hasPublisher = false
  ne_wake : x? ≠ some .wake

theorem hasPublisher_of_isAlive {c : Channel} {p : Nat} (hp : c.isAlive p) : c.hasPublisher := by
  unfold isAlive at hp
  cases hget : c.publishers[p]? with
  | none => simp [hget] at hp
  | some b =>
    have hb : b = true := by simpa [hget] using hp
    exact List.any_eq_true.mpr ⟨b, List.mem_of_getElem? hget, hb⟩

theorem takes_none {c d : Channel} (ho : d.isOpen = c.isOpen) (hs : d.isStopped = c.isStopped)
    (hm : d.messages = c.messages) (hp : c.hasPublisher = false → d.hasPublisher = false) :
    c.Takes none d where
  isOpen := ho
  isStopped := hs
  messages := by simpa using hm
  sender hx := by cases hx
  hasPublisher := hp
  ne_wake hx := by cases hx

theorem takes_send {c : Channel} {m : Message} (ho : c.isOpen) (hp : c.hasPublisher)
    (hm : m ≠ .wake) : c.Takes (some m) (c.send m) where
  isOpen := by simp [send, ho]
  isStopped := by simp [send, ho]
  messages := by simp [send, ho]
  sender _ := ⟨ho, hp⟩
  hasPublisher hn := by simp [hp] at hn
  ne_wake hx := hm (Option.some.inj hx)

theorem takes_send? {c d : Channel} {p : Nat} {r : Record} (hs : c.send? p r = some d) :
    c.isAlive p ∧ c.isOpen ∧ c.Takes (some (.record r)) d := by
  simp only [send?, Bool.and_eq_true, Option.ite_none_right_eq_some, Option.some.injEq] at hs
  obtain ⟨⟨hp, ho⟩, rfl⟩ := hs
  exact ⟨hp, ho, takes_send ho (hasPublisher_of_isAlive hp) (by simp)⟩

theorem Takes.wake_mem {c d : Channel} {x? : Option Message} (ht : c.Takes x? d)
    (hw : .wake ∈ d.messages) : .wake ∈ c.messages := by
  rw [ht.messages, List.mem_append] at hw
  exact hw.resolve_right fun hmem => ht.ne_wake (Option.mem_toList.mp hmem)

theorem takes_publish (c : Channel) (x : Publishing) : c.Takes (c.accepted? x) (c.publish x).1 := by
  cases x with
  | publish p n =>
    cases hp : c.isAlive p with
    | false => simpa [accepted?, publish, hp] using takes_none rfl rfl rfl id
    | true =>
      cases ha : c.accepts with
      | false =>
        simpa [accepted?, publish, hp, ha] using
          takes_none (c := c) (d := { c with made := c.made + 1 }) rfl rfl rfl id
      | true =>
        have ho : c.isOpen = true := by
          simp only [accepts, Bool.and_eq_true] at ha
          exact ha.2
        have hsend := takes_send (c := { c with made := c.made + 1 }) (m := .record ⟨n, c.made⟩) ho
          (hasPublisher_of_isAlive hp) (by simp)
        simpa [accepted?, publish, hp, ha] using
          (⟨hsend.isOpen, hsend.isStopped, hsend.messages, hsend.sender, hsend.hasPublisher,
            hsend.ne_wake⟩ : c.Takes _ _)
  | fail p report =>
    cases hp : c.isAlive p with
    | false => simpa [accepted?, publish, hp] using takes_none rfl rfl rfl id
    | true =>
      cases ho : c.isOpen with
      | true =>
        simpa [accepted?, publish, hp, ho] using
          takes_send ho (hasPublisher_of_isAlive hp) (m := .failure report) (by simp)
      | false => simpa [accepted?, publish, hp, ho, send] using takes_none (c := c) rfl rfl rfl id
  | isStopped p =>
    simp only [accepted?, publish]
    split <;> exact takes_none rfl rfl rfl id
  | clone p =>
    cases hp : c.isAlive p with
    | false => simpa [accepted?, publish, hp] using takes_none rfl rfl rfl id
    | true =>
      have hpub := hasPublisher_of_isAlive hp
      simpa [accepted?, publish, hp] using takes_none (c := c)
        (d := { c with publishers := c.publishers ++ [true] }) rfl rfl rfl (by simp [hpub])
  | finish p =>
    simp only [accepted?, publish]
    split
    · refine takes_none rfl rfl rfl fun hn => ?_
      simp only [hasPublisher, List.any_eq_false, id] at hn ⊢
      intro b hb
      rcases List.mem_or_eq_of_mem_set hb with hb | rfl
      · exact hn b hb
      · simp
    · exact takes_none rfl rfl rfl id
  | unknown => exact takes_none rfl rfl rfl id

/-- What happens to a channel apart from its fetches, with the message that it takes in. -/
inductive Change (c : Channel) : Option Message → Channel → Prop where
  | raise : Change c none c.raise
  | wake : Change c none c.wake
  | take {x? d} (ht : c.Takes x? d) : Change c x? d

theorem Change.refl (c : Channel) : c.Change none c := .take (takes_none rfl rfl rfl id)

variable {c d : Channel} {x? : Option Message} {o : Outcome} {rs : List Record}

theorem isOpen_wake (c : Channel) : c.wake.isOpen = c.isOpen := by
  unfold wake send
  split <;> try split
  all_goals rfl

theorem isStopped_wake (c : Channel) : c.wake.isStopped = c.isStopped := by
  unfold wake send
  split <;> try split
  all_goals rfl

theorem waiting_wake (c : Channel) : c.wake.waiting = c.waiting := by
  unfold wake send
  split <;> try split
  all_goals simp [waiting]

theorem hasPublisher_wake (c : Channel) : c.wake.hasPublisher = c.hasPublisher := by
  unfold wake send
  split <;> try split
  all_goals rfl

namespace Change

theorem isOpen (hc : c.Change x? d) : d.isOpen = c.isOpen := by
  cases hc with
  | raise => rfl
  | wake => exact c.isOpen_wake
  | take ht => exact ht.isOpen

theorem waiting (hc : c.Change x? d) : d.waiting = c.waiting ++ x?.toList := by
  cases hc with
  | raise => exact (List.append_nil _).symm
  | wake => rw [c.waiting_wake, Option.toList_none, List.append_nil]
  | take ht =>
    have hx : x?.toList.filter (· != .wake) = x?.toList := by
      cases x? with
      | none => rfl
      | some m =>
        have hm : m ≠ .wake := fun h => ht.ne_wake (by rw [h])
        simp [hm]
    rw [Channel.waiting, ht.messages, List.filter_append, hx]
    rfl

theorem of_closed (hc : c.Change x? d) (ho : c.isOpen = false) :
    x? = none ∧ d.messages = c.messages := by
  cases hc with
  | raise => exact ⟨rfl, rfl⟩
  | wake =>
    refine ⟨rfl, ?_⟩
    unfold Channel.wake send
    split <;> simp [ho]
  | take ht =>
    cases x? with
    | none => exact ⟨rfl, by simpa using ht.messages⟩
    | some m =>
      have hopen := (ht.sender rfl).1
      rw [ho] at hopen
      cases hopen

theorem of_hasPublisher (hc : c.Change x? d) (hp : c.hasPublisher = false) :
    x? = none ∧ d.hasPublisher = false := by
  cases hc with
  | raise => exact ⟨rfl, hp⟩
  | wake => exact ⟨rfl, c.hasPublisher_wake.trans hp⟩
  | take ht =>
    refine ⟨?_, ht.hasPublisher hp⟩
    cases x? with
    | none => rfl
    | some m =>
      have hpub := (ht.sender rfl).2
      rw [hp] at hpub
      cases hpub

end Change

/-- An answered fetch: the oldest message, or the end, over which the channel is closed. -/
inductive Fetch (c : Channel) : Channel → Outcome → List Record → Prop where
  | record {r rest} (hm : c.messages = .record r :: rest) :
    Fetch c { c with messages := rest } (.record r) []
  | failure {report rest} (hm : c.messages = .failure report :: rest) :
    Fetch c { c with messages := rest } (.failed report) []
  | finish (hw : c.isStopped ∨ .wake ∈ c.messages ∨
      (c.messages = [] ∧ (c.hasPublisher && c.isOpen) = false)) :
    Fetch c c.close.1 .endMarker c.close.2

theorem enter_of_isStopped (hs : c.isStopped = true) :
    c.enter = (c.close.1, some .endMarker, c.close.2) := by
  rw [enter, if_pos hs]
  rfl

theorem enter_of_not_isStopped (hs : c.isStopped = false) : c.enter = (c, none, []) := by
  rw [enter, hs]
  rfl

theorem fetch_of_enter (hf : c.enter = (d, some o, rs)) : c.Fetch d o rs := by
  unfold enter at hf
  split at hf
  next hs =>
    cases hf
    exact .finish (.inl hs)
  next => cases hf

theorem eq_of_enter (hf : c.enter = (d, none, rs)) : d = c ∧ rs = [] := by
  unfold enter at hf
  split at hf <;> cases hf
  exact ⟨rfl, rfl⟩

theorem fetch_of_receive? (hf : c.receive? = some (d, o, rs)) : c.Fetch d o rs := by
  unfold receive? at hf
  split at hf
  next r rest hm =>
    cases hf
    exact .record hm
  next report rest hm =>
    cases hf
    exact .failure hm
  next rest hm =>
    have hclose : ({ c with messages := rest } : Channel).finish =
        (c.close.1, .endMarker, c.close.2) := by
      simp [finish, close, records, hm, Message.record?, List.filterMap_cons]
    rw [hclose] at hf
    cases hf
    exact .finish (.inr (.inl (by simp [hm])))
  next hm =>
    split at hf
    next => cases hf
    next hw =>
      cases hf
      exact .finish (.inr (.inr ⟨hm, by simpa using hw⟩))

theorem eq_nil_of_receive? (hf : c.receive? = none) :
    c.messages = [] ∧ c.hasPublisher ∧ c.isOpen := by
  unfold receive? at hf
  split at hf
  next => cases hf
  next => cases hf
  next => cases hf
  next hm =>
    split at hf
    next hw =>
      simp only [Bool.and_eq_true] at hw
      exact ⟨hm, hw⟩
    next => cases hf

theorem mem_records_of_mem_waiting {r : Record} (hr : .record r ∈ c.waiting) : r ∈ c.records :=
  List.mem_filterMap.mpr ⟨.record r, (List.mem_filter.mp hr).1, rfl⟩

end Channel

namespace Link

/-- The messages that were fetched. -/
def heard {σ : Type} (l : Link σ) : List Message :=
  (Tally.ofTrace l.trace).outcomes.filterMap Outcome.message?

/-- Where the messages are that a channel has accepted: they were fetched or wait, and once the
channel is closed the records among the others were released. -/
inductive Conveys (accepted : List Message) (l : Link Channel) : Prop where
  | opened (ho : l.feed.isOpen = true) (ha : accepted = l.heard ++ l.feed.waiting)
  | closed {rest} (ho : l.feed.isOpen = false) (hm : l.feed.messages = [])
      (ha : accepted = l.heard ++ rest) (hr : ∀ r, .record r ∈ rest → .released r ∈ l.trace)

variable {l l' : Link Channel} {accepted : List Message}

theorem Conveys.heard_isPrefix (hi : l.Conveys accepted) : l.heard <+: accepted := by
  cases hi with
  | opened _ ha | closed _ _ ha =>
    rw [ha]
    exact List.prefix_append _ _

theorem Conveys.change (hi : l.Conveys accepted) {x? : Option Message}
    (hc : l.feed.Change x? l'.feed) (hy : l'.heard = l.heard) (ht : l.trace <+: l'.trace) :
    l'.Conveys (accepted ++ x?.toList) := by
  cases hi with
  | opened ho ha =>
    refine .opened (hc.isOpen.trans ho) ?_
    rw [hc.waiting, hy, ha, List.append_assoc]
  | closed ho hm ha hr =>
    obtain ⟨rfl, hm'⟩ := hc.of_closed ho
    refine .closed (hc.isOpen.trans ho) (hm'.trans hm) ?_ fun r hmem => ht.subset (hr r hmem)
    rw [hy, ha, Option.toList_none, List.append_nil]

theorem Conveys.fetch (hi : l.Conveys accepted) {m : Message} {rest : List Message}
    (hf : l'.feed = { l.feed with messages := rest }) (hne : m ≠ .wake)
    (hm : l.feed.messages = m :: rest) (hy : l'.heard = l.heard ++ [m]) :
    l'.Conveys accepted := by
  cases hi with
  | opened ho ha =>
    refine .opened (by rw [hf]; exact ho) ?_
    have hwaiting : l.feed.waiting = m :: l'.feed.waiting := by
      rw [hf, Channel.waiting, hm, List.filter_cons_of_pos (by simpa using hne)]
      rfl
    rw [ha, hwaiting, hy, List.append_assoc]
    rfl
  | closed ho hempty =>
    rw [hm] at hempty
    cases hempty

theorem Conveys.close (hi : l.Conveys accepted) (hf : l'.feed = l.feed.close.1)
    (hy : l'.heard = l.heard) (ht : l.trace <+: l'.trace)
    (hr : ∀ r ∈ l.feed.close.2, .released r ∈ l'.trace) : l'.Conveys accepted := by
  have ho' : l'.feed.isOpen = false := by rw [hf]; rfl
  have hm' : l'.feed.messages = [] := by rw [hf]; rfl
  cases hi with
  | opened ho ha =>
    refine .closed ho' hm' (by rw [hy]; exact ha) fun r hmem => ?_
    exact hr r (Channel.mem_records_of_mem_waiting hmem)
  | closed ho hm ha hrest =>
    exact .closed ho' hm' (by rw [hy]; exact ha) fun r hmem => ht.subset (hrest r hmem)

end Link

/-- What a step of the producer means to the channel that he reads: only a producer who is not out
of his loop fetches, and he closes the channel when he retires. -/
inductive Producer.Reads (p p' : Producer) (l l' : Link Channel) : Prop where
  | idle (hf : l'.feed = l.feed) (hp : p'.place.isOut = p.place.isOut)
      (hy : (Tally.ofTrace l'.trace).outcomes = (Tally.ofTrace l.trace).outcomes)
  | fetch {o rs} (hf : l.feed.Fetch l'.feed o rs) (hp : p.place.isOut = false)
      (hp' : p'.place = .afterFetch o)
      (hy : (Tally.ofTrace l'.trace).outcomes = (Tally.ofTrace l.trace).outcomes ++ [o])
      (hr : ∀ r ∈ rs, .released r ∈ l'.trace)
  | retire (hf : l'.feed = l.feed.close.1) (hp' : p'.place.isOut)
      (hy : (Tally.ofTrace l'.trace).outcomes = (Tally.ofTrace l.trace).outcomes)
      (hr : ∀ r ∈ l.feed.close.2, .released r ∈ l'.trace)

theorem Producer.Step.reads {p p' : Producer} {l l' : Link Channel} (hs : p.Step l p' l') :
    p.Reads p' l l' := by
  cases hs with
  | start hp | pushRefused hp hq | collectFailed hp hq | mark hp | release hp =>
    exact .idle rfl (by simp [hp]) (by simp)
  | enterWaiting hp hf =>
    obtain ⟨rfl, rfl⟩ := Channel.eq_of_enter hf
    exact .idle rfl (by simp [hp]) (by simp)
  | enterAnswered hp hf =>
    refine .fetch (Channel.fetch_of_enter hf) (by simp [hp]) rfl (by simp) fun r hr => ?_
    simp [Event.releasing, hr]
  | receive hp hf =>
    refine .fetch (Channel.fetch_of_receive? hf) (by simp [hp]) rfl (by simp) fun r hr => ?_
    simp [Event.releasing, hr]
  | push hp hq | collectHandled hp hq => exact .idle rfl (by simp [hp]) rfl
  | retire hp hf =>
    cases hf
    refine .retire rfl rfl (by simp) fun r hr => ?_
    simp only [Link.trace_fed, Event.releasing]
    simpa using .inr hr

namespace Producer.Reads

variable {p p' : Producer} {l l' : Link Channel}

theorem isOpen (hr : p.Reads p' l l') (hi : p.place.isOut = false → l.feed.isOpen)
    (hp' : p'.place.isOut = false) : l'.feed.isOpen := by
  cases hr with
  | idle hf hplace =>
    rw [hf]
    exact hi (hplace ▸ hp')
  | fetch hf hp hplace =>
    have hopen := hi hp
    generalize l'.feed = d at hf
    cases hf with
    | record | failure => exact hopen
    | finish => simp [hplace, Place.afterFetch] at hp'
  | retire hf hplace =>
    rw [hplace] at hp'
    cases hp'

theorem hasPublisher (hr : p.Reads p' l l') : l'.feed.hasPublisher = l.feed.hasPublisher := by
  cases hr with
  | idle hf => rw [hf]
  | retire hf =>
    rw [hf]
    rfl
  | fetch hf =>
    generalize l'.feed = d at hf
    cases hf <;> rfl

theorem outcomes (hr : p.Reads p' l l') (hi : ∀ x, .panicked x ∉ (Tally.ofTrace l.trace).outcomes) :
    ∀ x, .panicked x ∉ (Tally.ofTrace l'.trace).outcomes := by
  intro x hx
  cases hr with
  | idle _ _ hy | retire _ _ hy =>
    rw [hy] at hx
    exact hi x hx
  | fetch hf _ _ hy =>
    rw [hy, List.mem_append, List.mem_singleton] at hx
    generalize l'.feed = d at hf
    rcases hx with hx | rfl
    · exact hi x hx
    · cases hf

end Producer.Reads

theorem Link.Conveys.produce {p p' : Producer} {l l' : Link Channel} {accepted : List Message}
    (hi : l.Conveys accepted) (hs : p.Step l p' l') : l'.Conveys accepted := by
  have ht := hs.trace_grows
  cases hs.reads with
  | idle hf _ hy =>
    have hchange : l.feed.Change none l'.feed := by
      rw [hf]
      exact .refl _
    simpa using hi.change hchange (by rw [heard, hy]; rfl) ht
  | @fetch o rs hf _ _ hy hr =>
    have hheard : l'.heard = l.heard ++ o.message?.toList := by
      rw [heard, hy, List.filterMap_append]
      cases ho : o.message? <;> simp [heard, ho]
    generalize hd : l'.feed = d at hf
    cases hf with
    | record hm => exact hi.fetch hd (by simp) hm hheard
    | failure hm => exact hi.fetch hd (by simp) hm hheard
    | finish hw => exact hi.close hd (by simpa [Outcome.message?] using hheard) ht hr
  | retire hf _ hy hr => exact hi.close hf (by rw [heard, hy]; rfl) ht hr

end Handoff
