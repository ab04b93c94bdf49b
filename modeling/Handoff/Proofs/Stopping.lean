import Handoff.Proofs.Conveyance

/-! A channel whose stops race with its fetches and its publishers: a fetch looks at the stop flag
before it waits, and a stop sets the flag before it sends a wake-up. -/
namespace Handoff

/-- Where the fetcher of a channel stands: between two fetches, past the look at the flag, or
gone. -/
inductive Race.Fetcher where
  | idle
  | waiting
  | gone
deriving DecidableEq, Repr

structure Race where
  depot : Depot Channel := { feed := {} }
  fetcher : Race.Fetcher := .idle
  answers : List Outcome := []
  /-- Stops that have set the flag and not sent their wake-up yet. -/
  halfway : Nat := 0
  returned : Nat := 0
deriving DecidableEq, Repr

namespace Race

inductive Label where
  | check
  | receive
  | retire
  | raise
  | wake
  | supply (x : Supply)
deriving DecidableEq, Repr

def channel (m : Race) : Channel := m.depot.feed

def fed (m : Race) (c : Channel) (rs : List Record) : Race :=
  { m with depot := { m.depot with feed := c, noted := m.depot.noted ++ Event.releasing rs } }

def told (m : Race) (o : Outcome) : Race :=
  { m with fetcher := .idle, answers := m.answers ++ [o] }

def step? (m : Race) : Label → Option Race
  | .check =>
    if m.fetcher = .idle then
      match m.channel.enter with
      | (c, none, rs) => some { m.fed c rs with fetcher := .waiting }
      | (c, some o, rs) => some ((m.fed c rs).told o)
    else none
  | .receive =>
    if m.fetcher = .waiting then
      m.channel.receive?.map fun (c, o, rs) => (m.fed c rs).told o
    else none
  | .retire =>
    if m.fetcher = .idle then
      let (c, rs) := m.channel.close
      some { m.fed c rs with fetcher := .gone }
    else none
  | .raise => some { m.fed m.channel.raise [] with halfway := m.halfway + 1 }
  | .wake =>
    if 0 < m.halfway then
      some { m.fed m.channel.wake [] with
        halfway := m.halfway - 1
        returned := m.returned + 1 }
    else none
  | .supply x => (m.depot.supply? x).map fun d => { m with depot := d }

def run? (m : Race) : List Label → Option Race
  | [] => some m
  | label :: rest => (m.step? label).bind fun next => next.run? rest

inductive Step (m : Race) : Label → Race → Prop where
  | wait (hf : m.fetcher = .idle) (hs : m.channel.isStopped = false) :
    Step m .check { m.fed m.channel [] with fetcher := .waiting }
  | heed (hf : m.fetcher = .idle) (hs : m.channel.isStopped = true) :
    Step m .check ((m.fed m.channel.close.1 m.channel.close.2).told .endMarker)
  | receive {c o rs} (hf : m.fetcher = .waiting) (hc : m.channel.Fetch c o rs) :
    Step m .receive ((m.fed c rs).told o)
  | retire (hf : m.fetcher = .idle) :
    Step m .retire { m.fed m.channel.close.1 m.channel.close.2 with fetcher := .gone }
  | raise : Step m .raise { m.fed m.channel.raise [] with halfway := m.halfway + 1 }
  | wake (hw : 0 < m.halfway) :
    Step m .wake
      { m.fed m.channel.wake [] with halfway := m.halfway - 1, returned := m.returned + 1 }
  | supply {x d} (hd : m.depot.supply? x = some d) : Step m (.supply x) { m with depot := d }

variable {m m' : Race} {label : Label}

theorem run?_eq_foldlM (m : Race) (labels : List Label) : m.run? labels = labels.foldlM step? m :=
  eq_foldlM (fun _ => rfl) (fun _ _ _ => rfl) m labels

theorem step_of_step? (hs : m.step? label = some m') : Step m label m' := by
  cases label with
  | check =>
    simp only [step?, Option.ite_none_right_eq_some] at hs
    obtain ⟨hf, hs⟩ := hs
    cases hstop : m.channel.isStopped with
    | true =>
      rw [Channel.enter_of_isStopped hstop] at hs
      cases hs
      exact .heed hf hstop
    | false =>
      rw [Channel.enter_of_not_isStopped hstop] at hs
      cases hs
      exact .wait hf hstop
  | receive =>
    simp only [step?, Option.ite_none_right_eq_some, Option.map_eq_some_iff] at hs
    obtain ⟨hf, ⟨c, o, rs⟩, hc, rfl⟩ := hs
    exact .receive hf (Channel.fetch_of_receive? hc)
  | retire =>
    simp only [step?, Option.ite_none_right_eq_some] at hs
    obtain ⟨hf, hs⟩ := hs
    cases hs
    exact .retire hf
  | raise =>
    cases hs
    exact .raise
  | wake =>
    simp only [step?, Option.ite_none_right_eq_some] at hs
    obtain ⟨hw, hs⟩ := hs
    cases hs
    exact .wake hw
  | supply x =>
    obtain ⟨d, hd, rfl⟩ := Option.map_eq_some_iff.mp hs
    exact .supply hd

/-- The receive of a fetch that waits is possible unless the channel is empty and someone can still
publish to it. -/
theorem isSome_receive (hf : m.fetcher = .waiting)
    (hm : m.channel.messages ≠ [] ∨ m.channel.hasPublisher = false) :
    (m.step? .receive).isSome := by
  simp only [step?, if_pos hf, Option.isSome_map]
  cases hc : m.channel.receive? with
  | some answer => rfl
  | none =>
    obtain ⟨hempty, hpub, -⟩ := Channel.eq_nil_of_receive? hc
    rcases hm with hne | hp
    · exact (hne hempty).elim
    · rw [hp] at hpub
      cases hpub

theorem count_of_run {labels : List Label} (hr : m.run? labels = some m') :
    m'.returned = m.returned + labels.count .wake ∧
      m'.halfway + m'.returned = m.halfway + m.returned + labels.count .raise := by
  induction labels generalizing m with
  | nil =>
    cases hr
    exact ⟨rfl, rfl⟩
  | cons label rest ih =>
    obtain ⟨next, hs, hr⟩ := Option.bind_eq_some_iff.mp hr
    obtain ⟨hreturned, hall⟩ := ih hr
    rw [List.count_cons, List.count_cons]
    cases step_of_step? hs with
    | raise | wake =>
      simp [fed] at hreturned hall ⊢
      omega
    | _ => simpa [fed, told] using ⟨hreturned, hall⟩

/-- What holds of a channel, its fetcher and the stops on their way at every moment. -/
structure Sound (m : Race) : Prop where
  stopped : m.channel.isStopped ↔ 0 < m.halfway + m.returned
  wake : .wake ∈ m.channel.messages → m.channel.isStopped
  /-- A channel is closed over a stop or because there is nobody to publish any more. -/
  closed : m.fetcher = .idle → m.channel.isOpen = false →
    m.channel.isStopped ∨ m.channel.hasPublisher = false
  /-- A fetch that has begun to wait before the first stop finds its channel open. -/
  opened : m.fetcher = .waiting → m.channel.isOpen ∨ m.channel.hasPublisher = false
  woken : 0 < m.returned → m.fetcher = .waiting →
    m.channel.messages ≠ [] ∨ m.channel.hasPublisher = false

namespace Sound

theorem fetch {c : Channel} {o : Outcome} {rs : List Record} (hi : m.Sound)
    (hf : m.fetcher = .waiting) (hc : m.channel.Fetch c o rs) : ((m.fed c rs).told o).Sound where
  stopped := by cases hc <;> exact hi.stopped
  wake := by
    cases hc with
    | record hm | failure hm =>
      intro hw
      refine hi.wake ?_
      rw [hm]
      exact List.mem_cons_of_mem _ hw
    | finish =>
      intro hw
      cases hw
  closed := by
    have hopened := hi.opened hf
    cases hc with
    | record hm | failure hm =>
      intro _ ho
      replace ho : m.channel.isOpen = false := ho
      rw [ho] at hopened
      exact .inr (hopened.resolve_left (by simp))
    | finish hw =>
      intro _ _
      rcases hw with hstop | hwake | ⟨-, hnone⟩
      · exact .inl hstop
      · exact .inl (hi.wake hwake)
      · rcases hopened with ho | hp
        · rw [ho, Bool.and_true] at hnone
          exact .inr hnone
        · exact .inr hp
  opened hw := by cases hw
  woken _ hw := by cases hw

/-- A wake-up is sent unless there is nobody left, and an open channel takes it in. -/
theorem sendWake (hi : m.Sound) (hw : 0 < m.halfway) :
    Sound { m.fed m.channel.wake [] with
      halfway := m.halfway - 1
      returned := m.returned + 1 } := by
  have hstop : m.channel.isStopped = true := hi.stopped.mpr (by omega)
  have hstop' : m.channel.wake.isStopped = true := m.channel.isStopped_wake.trans hstop
  refine ⟨?_, fun _ => hstop', fun _ _ => .inl hstop', fun hf => ?_, fun _ hf => ?_⟩
  · change m.channel.wake.isStopped ↔ 0 < m.halfway - 1 + (m.returned + 1)
    rw [hstop']
    exact iff_of_true rfl (by omega)
  · change m.channel.wake.isOpen ∨ m.channel.wake.hasPublisher = false
    rw [m.channel.isOpen_wake, m.channel.hasPublisher_wake]
    exact hi.opened hf
  · change m.channel.wake.messages ≠ [] ∨ m.channel.wake.hasPublisher = false
    rw [m.channel.hasPublisher_wake]
    by_cases hp : m.channel.hasPublisher = false
    · exact .inr hp
    · have ho : m.channel.isOpen = true := (hi.opened hf).resolve_right hp
      left
      simp [Channel.wake, Channel.send, ho, hp]

theorem take {x? : Option Message} {d : Depot Channel} (hi : m.Sound)
    (ht : m.channel.Takes x? d.feed) : Sound { m with depot := d } where
  stopped := by
    change d.feed.isStopped ↔ 0 < m.halfway + m.returned
    rw [ht.isStopped]
    exact hi.stopped
  wake hw := by
    change d.feed.isStopped
    rw [ht.isStopped]
    exact hi.wake (ht.wake_mem hw)
  closed hf ho := by
    change d.feed.isStopped ∨ d.feed.hasPublisher = false
    replace ho : d.feed.isOpen = false := ho
    rw [ht.isOpen] at ho
    rw [ht.isStopped]
    exact (hi.closed hf ho).imp_right ht.hasPublisher
  opened hf := by
    change d.feed.isOpen ∨ d.feed.hasPublisher = false
    rw [ht.isOpen]
    exact (hi.opened hf).imp_right ht.hasPublisher
  woken hr hf := by
    change d.feed.messages ≠ [] ∨ d.feed.hasPublisher = false
    rw [ht.messages]
    refine (hi.woken hr hf).imp (fun hne hnil => ?_) ht.hasPublisher
    exact hne (List.append_eq_nil_iff.mp hnil).1

theorem step (hi : m.Sound) (hs : Step m label m') : m'.Sound := by
  cases hs with
  | wait hf hs =>
    have hnone : ¬ 0 < m.halfway + m.returned := fun hpos => by
      have hstop := hi.stopped.mpr hpos
      rw [hs] at hstop
      cases hstop
    refine { stopped := hi.stopped, wake := hi.wake, closed := fun hw => ?_, opened := fun _ => ?_,
             woken := fun hr => ?_ }
    · cases hw
    · by_cases ho : m.channel.isOpen = true
      · exact .inl ho
      · have hclosed := hi.closed hf (by simpa using ho)
        exact .inr (hclosed.resolve_left (by simp [hs]))
    · -- a stop that has returned has set the flag, and this fetch has found it unset
      replace hr : 0 < m.returned := hr
      omega
  | heed hf hs =>
    refine { stopped := hi.stopped, wake := fun hw => ?_, closed := fun _ _ => .inl hs,
             opened := fun hw => ?_, woken := fun _ hw => ?_ } <;> cases hw
  | receive hf hc => exact hi.fetch hf hc
  | retire hf =>
    refine { stopped := hi.stopped, wake := fun hw => ?_, closed := fun hw => ?_,
             opened := fun hw => ?_, woken := fun _ hw => ?_ } <;> cases hw
  | raise =>
    refine { stopped := ?_, wake := fun _ => rfl, closed := fun _ _ => .inl rfl,
             opened := hi.opened, woken := hi.woken }
    change true = true ↔ 0 < m.halfway + 1 + m.returned
    exact iff_of_true rfl (by omega)
  | wake hw => exact hi.sendWake hw
  | supply hd => exact hi.take (Depot.takes_supply? hd)

theorem run (hi : m.Sound) {labels : List Label} (hr : m.run? labels = some m') : m'.Sound := by
  rw [run?_eq_foldlM] at hr
  exact foldlM_keeps (fun _ _ _ _ hi hs => hi.step (step_of_step? hs)) hi hr

end Sound

theorem sound_start : Sound {} where
  stopped := by simp [channel]
  wake hw := by cases hw
  closed _ ho := by cases ho
  opened hw := by cases hw
  woken hr := by cases hr

/-- Once the flag is set a step answers no fetch, or it ends the stream, or it answers the fetch
that had begun to wait before. -/
theorem Step.of_isStopped (hs : Step m label m') (hstop : m.channel.isStopped = true) :
    m'.channel.isStopped = true ∧ (m'.fetcher = .waiting → m.fetcher = .waiting) ∧
      (m'.answers = m.answers ∨ ∃ o, m'.answers = m.answers ++ [o] ∧ m'.fetcher = .idle ∧
        (m.fetcher ≠ .waiting → o = .endMarker)) := by
  cases hs with
  | wait hf hs =>
    rw [hstop] at hs
    cases hs
  | heed hf hs =>
    refine ⟨hstop, fun hw => ?_, .inr ⟨_, rfl, rfl, fun _ => rfl⟩⟩
    cases hw
  | @receive c o rs hf hc =>
    refine ⟨?_, fun _ => hf, .inr ⟨o, rfl, rfl, fun hne => (hne hf).elim⟩⟩
    cases hc <;> exact hstop
  | retire hf =>
    refine ⟨hstop, fun hw => ?_, .inl rfl⟩
    cases hw
  | raise => exact ⟨rfl, id, .inl rfl⟩
  | wake hw => exact ⟨m.channel.isStopped_wake.trans hstop, id, .inl rfl⟩
  | supply hd => exact ⟨(Depot.takes_supply? hd).isStopped.trans hstop, id, .inl rfl⟩

theorem answers_of_isStopped {labels : List Label} (hstop : m.channel.isStopped = true)
    (hr : m.run? labels = some m') :
    ∃ os, m'.answers = m.answers ++ os ∧ (∀ o ∈ os.tail, o = .endMarker) ∧
      (m.fetcher ≠ .waiting → ∀ o ∈ os, o = .endMarker) := by
  induction labels generalizing m with
  | nil =>
    cases hr
    exact ⟨[], (List.append_nil _).symm, by simp, by simp⟩
  | cons label rest ih =>
    obtain ⟨next, hs, hr⟩ := Option.bind_eq_some_iff.mp hr
    obtain ⟨hstop', hwaiting, hanswers⟩ := (step_of_step? hs).of_isStopped hstop
    obtain ⟨os, hos, htail, hall⟩ := ih hstop' hr
    rcases hanswers with hsame | ⟨o, ho, hidle, hend⟩
    · exact ⟨os, by rw [hos, hsame], htail, fun hne => hall fun hw => hne (hwaiting hw)⟩
    · have hrest : ∀ o ∈ os, o = .endMarker := hall (by rw [hidle]; simp)
      refine ⟨o :: os, by rw [hos, ho, List.append_assoc]; rfl, hrest, fun hne => ?_⟩
      exact List.forall_mem_cons.mpr ⟨hend hne, hrest⟩

/-- What stops bring about in a run, whatever the fetcher and the publishers do meanwhile. -/
structure Heeds (labels : List Label) (m : Race) : Prop where
  stopped : m.channel.isStopped ↔ .raise ∈ labels
  wake : .wake ∈ m.channel.messages → m.channel.isStopped
  /-- A fetch that looks at the flag after the first stop has set it ends the stream. -/
  check : .raise ∈ labels → m.fetcher = .idle → ∃ m', m.step? .check = some m' ∧
    m'.answers = m.answers ++ [.endMarker] ∧ m'.fetcher = .idle
  /-- Only the fetch that was past its look at the flag may still answer something else. -/
  late : .raise ∈ labels → ∀ more m', m.run? more = some m' →
    ∃ os, m'.answers = m.answers ++ os ∧ (∀ o ∈ os.tail, o = .endMarker) ∧
      (m.fetcher ≠ .waiting → ∀ o ∈ os, o = .endMarker)
  /-- No fetch stays blocked once a stop has returned. -/
  unblocked : .wake ∈ labels → m.fetcher = .waiting →
    (m.channel.messages ≠ [] ∨ m.channel.hasPublisher = false) ∧ (m.step? .receive).isSome

/-- A stop takes effect at once and unblocks the fetch that waits, in whatever order the fetcher,
the publishers and the stops take their steps. -/
theorem heeds_of_run {labels : List Label} (hr : run? {} labels = some m) : m.Heeds labels := by
  have hi := sound_start.run hr
  obtain ⟨hreturned, hall⟩ := count_of_run hr
  replace hreturned : m.returned = labels.count .wake := by simpa using hreturned
  replace hall : m.halfway + m.returned = labels.count .raise := by simpa using hall
  have hstopped : m.channel.isStopped ↔ .raise ∈ labels := by
    rw [hi.stopped, hall, List.count_pos_iff]
  refine ⟨hstopped, hi.wake, fun hl hf => ?_, fun hl more m' => ?_, fun hl hf => ?_⟩
  · have hstop := hstopped.mpr hl
    refine ⟨(m.fed m.channel.close.1 m.channel.close.2).told .endMarker, ?_, rfl, rfl⟩
    simp [step?, hf, Channel.enter_of_isStopped hstop]
  · exact answers_of_isStopped (hstopped.mpr hl)
  · have hpos : 0 < m.returned := by
      rw [hreturned]
      exact List.count_pos_iff.mpr hl
    have hm := hi.woken hpos hf
    exact ⟨hm, isSome_receive hf hm⟩

/-- A second fetch waits while a stop sets the flag, the last publisher leaves and the stop finds
nobody to send its wake-up for; a second stop does not come to its wake-up. -/
def lastPublisherLabels : List Label :=
  [.check, .supply (.ask (.publish 0 7)), .receive, .check, .raise, .raise,
    .supply (.ask (.finish 0)), .wake]

theorem heeds_lastPublisher :
    ∃ m, run? {} lastPublisherLabels = some m ∧ m.answers = [.record ⟨7, 0⟩] ∧
      m.fetcher = .waiting ∧ m.channel.messages = [] ∧ m.halfway = 1 ∧
      m.Heeds lastPublisherLabels := by
  have hends : (run? {} lastPublisherLabels).map
      (fun m => (m.answers, m.fetcher, m.channel.messages, m.halfway)) =
        some ([.record ⟨7, 0⟩], .waiting, [], 1) := by decide
  obtain ⟨m, hr, hm⟩ := Option.map_eq_some_iff.mp hends
  simp only [Prod.mk.injEq] at hm
  obtain ⟨hanswers, hf, hmessages, hhalfway⟩ := hm
  exact ⟨m, hr, hanswers, hf, hmessages, hhalfway, heeds_of_run hr⟩

end Race

end Handoff
