import Handoff.Channel.Session
import Handoff.Proofs.Acceptance

/-! A channel that nobody stops is a queue that ends with its last publisher, and whether there is
someone who could stop it makes no difference. -/
namespace Handoff.Channel

/-- The message that a begun fetch has received and not handed out yet. -/
def Fetching.held : Fetching → List Message
  | begun (some o) => o.message?.toList
  | begun none | unstarted | ready | gone => []

namespace Session

/-- Neither is the channel stopped nor is its fetching end dropped. -/
@[simp] def Step.isPeaceful : Step → Bool
  | stop | dropSource | dropFetcher => false
  | publish .. | fail .. | isStopped _ | clone _ | finish _ | start | dropStopper | fetch
  | beginFetch | endFetch | unknown => true

@[simp] def Result.message? : Result → Option Message
  | fetched o => o.message?
  | absent | accepted | rejected _ | sent | stopped _ | publisher _ | done | started | begun
  | blocked => none

def accepted? (s : Session) : Step → Option Message
  | .publish p n => s.channel.accepted? (.publish p n)
  | .fail p report => s.channel.accepted? (.fail p report)
  | .isStopped _ | .clone _ | .finish _ | .start | .dropSource | .dropStopper | .dropFetcher
  | .stop | .fetch | .beginFetch | .endFetch | .unknown => none

def after (s : Session) : List Step → Session
  | [] => s
  | x :: rest => (s.step x).2.2.after rest

def acceptedIn (s : Session) : List Step → List Message
  | [] => []
  | x :: rest => (s.accepted? x).toList ++ (s.step x).2.2.acceptedIn rest

def fetchedIn (s : Session) (xs : List Step) : List Message :=
  (s.answers xs).filterMap (·.1.message?)

def IsFetch (s : Session) (x : Step) : Prop :=
  (x = .fetch ∧ s.fetching = .ready) ∨ (x = .endFetch ∧ ∃ answer?, s.fetching = .begun answer?)

/-- A channel after it has accepted some messages, of which some were fetched. -/
structure IsQueue (accepted fetched : List Message) (s : Session) : Prop where
  order : accepted = fetched ++ s.fetching.held ++ s.channel.messages
  /-- Whatever a publisher who is still there publishes or fails with is accepted. -/
  accepts : ∀ p, s.channel.isAlive p →
    (∀ n, s.accepted? (.publish p n) = some (.record ⟨n, s.channel.made⟩) ∧
      (s.step (.publish p n)).1 = .accepted) ∧
    ∀ report, s.accepted? (.fail p report) = some (.failure report)
  /-- A fetch hands out the oldest message that was not fetched, -/
  oldest : ∀ x, s.IsFetch x → ∀ m rest, accepted = fetched ++ m :: rest →
    (s.step x).1.message? = some m
  /-- tells of the end if there is none and nobody can publish any more, -/
  ended : ∀ x, s.IsFetch x → ((s.step x).1 = .fetched .endMarker ↔
    s.channel.hasPublisher = false ∧ accepted = fetched)
  /-- and waits if there is none and someone still can. -/
  blocked : ∀ x, s.IsFetch x → ((s.step x).1 = .blocked ↔
    s.channel.hasPublisher = true ∧ accepted = fetched)

/-- What holds of a channel that nobody stops, with its fetching end. -/
structure Queued (accepted fetched : List Message) (c : Channel) (f : Fetching) : Prop where
  order : accepted = fetched ++ f.held ++ c.messages
  isStopped : c.isStopped = false
  wake : .wake ∉ c.messages
  isOpen : c.hasPublisher → c.isOpen
  answered : ∀ o, f = .begun (some o) →
    o.message?.isSome ∨ (o = .endMarker ∧ c.hasPublisher = false ∧ c.messages = [])

/-- A begun fetch has received all that it can. -/
def IsSettled (s : Session) : Prop := s.fetching = .begun none → s.channel.receive? = none

variable {accepted fetched : List Message} {c d : Channel} {f : Fetching} {o : Outcome}
  {rs : List Record} {s : Session} {x : Step}

namespace Queued

theorem takes {x? : Option Message} (hi : Queued accepted fetched c f) (ht : c.Takes x? d) :
    Queued (accepted ++ x?.toList) fetched d f where
  order := by rw [ht.messages, hi.order, List.append_assoc]
  isStopped := ht.isStopped.trans hi.isStopped
  wake hw := hi.wake (ht.wake_mem hw)
  isOpen hp := by
    rw [ht.isOpen]
    by_cases hc : c.hasPublisher = true
    · exact hi.isOpen hc
    · have hd := ht.hasPublisher (by simpa using hc)
      rw [hd] at hp
      cases hp
  answered o ho := by
    refine (hi.answered o ho).imp_right fun ⟨hend, hp, hm⟩ => ⟨hend, ht.hasPublisher hp, ?_⟩
    rw [ht.messages, hm]
    cases x? with
    | none => rfl
    | some m =>
      have hsender := (ht.sender rfl).2
      rw [hp] at hsender
      cases hsender

/-- A fetch takes the oldest message, or there is none and nobody to publish one. -/
theorem of_receive? (hi : Queued accepted fetched c f) (hr : c.receive? = some (d, o, rs)) :
    (∃ m, o.message? = some m ∧ c.messages = m :: d.messages ∧
      d = { c with messages := d.messages }) ∨
      (o = .endMarker ∧ c.messages = [] ∧ c.hasPublisher = false ∧ d = c.close.1) := by
  cases Channel.fetch_of_receive? hr with
  | record hm | failure hm => exact .inl ⟨_, rfl, hm, rfl⟩
  | finish hw =>
    rcases hw with hstop | hwake | ⟨hempty, hnone⟩
    · rw [hi.isStopped] at hstop
      cases hstop
    · exact (hi.wake hwake).elim
    · refine .inr ⟨rfl, hempty, ?_, rfl⟩
      by_cases hp : c.hasPublisher = true
      · rw [hp, hi.isOpen hp] at hnone
        cases hnone
      · simpa using hp

theorem receive (hi : Queued accepted fetched c f) (hf : f.held = [])
    (hr : c.receive? = some (d, o, rs)) {fetched' : List Message} {f' : Fetching}
    (hheld : fetched' ++ f'.held = fetched ++ o.message?.toList)
    (hf' : ∀ o', f' = .begun (some o') → o' = o) : Queued accepted fetched' d f' := by
  have horder := hi.order
  rw [hf, List.append_nil] at horder
  rcases hi.of_receive? hr with ⟨m, ho, hm, hd⟩ | ⟨rfl, hempty, hp, rfl⟩
  · refine ⟨?_, ?_, fun hw => hi.wake ?_, ?_, fun o' ho' => .inl ?_⟩
    · rw [hheld, horder, hm, ho, List.append_assoc]
      rfl
    · rw [hd]
      exact hi.isStopped
    · rw [hm]
      exact List.mem_cons_of_mem _ hw
    · rw [hd]
      exact hi.isOpen
    · rw [hf' o' ho', ho]
      rfl
  · have hnobody : c.close.1.hasPublisher = false := hp
    refine ⟨?_, hi.isStopped, fun hw => ?_, fun hpub => ?_, fun o' ho' => .inr ?_⟩
    · rw [hheld, horder, hempty, List.append_assoc]
      rfl
    · cases hw
    · rw [hnobody] at hpub
      cases hpub
    · exact ⟨hf' o' ho', hp, rfl⟩

theorem moves {f' : Fetching} (hi : Queued accepted fetched c f) (hf : f.held = [])
    (hf' : f'.held = []) (hnone : ∀ o, f' ≠ .begun (some o)) :
    Queued accepted fetched c f' where
  order := by
    rw [hf', ← hf]
    exact hi.order
  isStopped := hi.isStopped
  wake := hi.wake
  isOpen := hi.isOpen
  answered o ho := (hnone o ho).elim

theorem handOut (hi : Queued accepted fetched c (.begun (some o))) :
    Queued accepted (fetched ++ o.message?.toList) c .ready where
  order := by
    rw [hi.order, Fetching.held, Fetching.held, List.append_nil]
  isStopped := hi.isStopped
  wake := hi.wake
  isOpen := hi.isOpen
  answered o ho := by cases ho

end Queued

theorem queued_publishing (hi : Queued accepted fetched s.channel s.fetching) (p : Nat)
    (x : Publishing) {result : Result} (hr : result.message? = none)
    (hx : s.channel.isAlive p = false → s.channel.accepted? x = none) :
    Queued (accepted ++ (s.channel.accepted? x).toList)
      (fetched ++ (s.publishing p x result).1.message?.toList)
      (s.publishing p x result).2.2.channel (s.publishing p x result).2.2.fetching := by
  unfold publishing
  split
  next =>
    rw [hr, Option.toList_none, List.append_nil]
    exact hi.takes (s.channel.takes_publish x)
  next hp =>
    rw [hx (by simpa using hp), Option.toList_none, List.append_nil]
    simpa [absent] using hi

theorem hand_eq (o : Outcome) (rs : List Record) (s : Session) :
    (hand o rs s).1 = .fetched o ∧ (hand o rs s).2.2 = s := by
  cases o <;> exact ⟨rfl, rfl⟩

theorem queued_fetch (hi : Queued accepted fetched s.channel s.fetching)
    (hf : s.fetching = .ready) :
    Queued accepted (fetched ++ s.fetch.1.message?.toList) s.fetch.2.2.channel
      s.fetch.2.2.fetching := by
  unfold fetch
  rw [enter_of_not_isStopped hi.isStopped]
  simp only
  split
  next d o rs hr =>
    obtain ⟨hresult, hstate⟩ := hand_eq o ([] ++ rs) { s with channel := d }
    rw [hresult, hstate]
    refine hi.receive (by rw [hf]; rfl) hr ?_ fun o' ho' => ?_
    · rw [hf]
      exact List.append_nil _
    · rw [hf] at ho'
      cases ho'
  next => simpa using hi

theorem queued_act (hi : Queued accepted fetched s.channel s.fetching) (hx : x.isPeaceful) :
    Queued (accepted ++ (s.accepted? x).toList) (fetched ++ (s.act x).1.message?.toList)
      (s.act x).2.2.channel (s.act x).2.2.fetching := by
  have hsame : Queued (accepted ++ (none : Option Message).toList)
      (fetched ++ (none : Option Message).toList) s.channel s.fetching := by simpa using hi
  cases x with
  | publish p n =>
    simp only [act, publish]
    split
    · have htakes := hi.takes (s.channel.takes_publish (.publish p n))
      rw [← List.append_nil fetched] at htakes
      split <;> exact htakes
    next hp =>
      have hnone : s.accepted? (.publish p n) = none := by simp [accepted?, Channel.accepted?, hp]
      rw [hnone]
      exact hsame
  | fail p report =>
    exact queued_publishing hi p (.fail p report) rfl fun hp => by simp [Channel.accepted?, hp]
  | isStopped p => exact queued_publishing hi p (.isStopped p) rfl fun _ => rfl
  | clone p => exact queued_publishing hi p (.clone p) rfl fun _ => rfl
  | finish p => exact queued_publishing hi p (.finish p) rfl fun _ => rfl
  | start =>
    simp only [act]
    split
    next hf => exact hsame.moves (by rw [hf]; rfl) rfl (by simp)
    next => exact hsame
  | dropStopper =>
    simp only [act]
    split <;> exact hsame
  | fetch =>
    simp only [act]
    split
    next hf =>
      rw [accepted?, Option.toList_none, List.append_nil]
      exact queued_fetch hi hf
    next => exact hsame
  | beginFetch =>
    simp only [act]
    split
    next hf =>
      rw [beginFetch, enter_of_not_isStopped hi.isStopped]
      exact hsame.moves (by rw [hf]; rfl) rfl (by simp)
    next => exact hsame
  | endFetch =>
    simp only [act]
    split
    next o hf =>
      obtain ⟨hresult, hstate⟩ := hand_eq o [] { s with fetching := .ready }
      rw [hresult, hstate, accepted?, Option.toList_none, List.append_nil]
      rw [hf] at hi
      exact hi.handOut
    next => exact hsame
    next => exact hsame
  | unknown => exact hsame
  | stop | dropSource | dropFetcher => cases hx

theorem queued_progress (hi : Queued accepted fetched s.channel s.fetching) :
    Queued accepted fetched s.progress.2.channel s.progress.2.fetching := by
  unfold progress
  split
  next hf =>
    split
    next d o rs hr =>
      refine hi.receive (by rw [hf]; rfl) hr rfl fun o' ho' => ?_
      cases ho'
      rfl
    next => exact hi
  next => exact hi

theorem isSettled_progress (s : Session) : s.progress.2.IsSettled := by
  unfold progress
  split
  next hf =>
    split
    next d o rs hr =>
      intro hf'
      cases hf'
    next hr => exact fun _ => hr
  next hne => exact fun hf => (hne hf).elim

theorem queued_step (hi : Queued accepted fetched s.channel s.fetching) (hx : x.isPeaceful) :
    Queued (accepted ++ (s.accepted? x).toList) (fetched ++ (s.step x).1.message?.toList)
      (s.step x).2.2.channel (s.step x).2.2.fetching :=
  queued_progress (queued_act hi hx)

theorem isSettled_step (s : Session) (x : Step) : (s.step x).2.2.IsSettled :=
  isSettled_progress (s.act x).2.2

theorem queued_after {xs : List Step} (hi : Queued accepted fetched s.channel s.fetching)
    (hs : s.IsSettled) (hx : ∀ x ∈ xs, x.isPeaceful) :
    Queued (accepted ++ s.acceptedIn xs) (fetched ++ s.fetchedIn xs) (s.after xs).channel
      (s.after xs).fetching ∧ (s.after xs).IsSettled := by
  induction xs generalizing s accepted fetched with
  | nil => simpa [acceptedIn, fetchedIn, answers, after] using ⟨hi, hs⟩
  | cons x rest ih =>
    have hfirst := queued_step hi (hx x List.mem_cons_self)
    have hrest := ih hfirst (s.isSettled_step x) fun y hy => hx y (List.mem_cons_of_mem _ hy)
    have hfetched : s.fetchedIn (x :: rest) =
        (s.step x).1.message?.toList ++ (s.step x).2.2.fetchedIn rest := by
      unfold fetchedIn
      rw [answers, List.filterMap_cons]
      cases (s.step x).1.message? <;> rfl
    rw [acceptedIn, hfetched, ← List.append_assoc, ← List.append_assoc]
    exact hrest

/-- What a fetch can answer. -/
theorem Queued.result (hi : Queued accepted fetched s.channel s.fetching) (hs : s.IsSettled)
    (hx : s.IsFetch x) :
    (∃ o m rest, (s.step x).1 = .fetched o ∧ o.message? = some m ∧
      accepted = fetched ++ m :: rest) ∨
    ((s.step x).1 = .fetched .endMarker ∧ s.channel.hasPublisher = false ∧ accepted = fetched) ∨
    ((s.step x).1 = .blocked ∧ s.channel.hasPublisher = true ∧ accepted = fetched) := by
  have horder := hi.order
  rcases hx with ⟨rfl, hf⟩ | ⟨rfl, answer?, hf⟩
  · have hact : (s.step .fetch).1 = s.fetch.1 := by
      simp [step, act, hf]
    rw [hf, Fetching.held, List.append_nil] at horder
    rw [hact, fetch, enter_of_not_isStopped hi.isStopped]
    simp only
    split
    next d o rs hr =>
      rw [(hand_eq _ _ _).1]
      rcases hi.of_receive? hr with ⟨m, ho, hm, -⟩ | ⟨rfl, hempty, hp, -⟩
      · exact .inl ⟨o, m, d.messages, rfl, ho, by rw [horder, hm]⟩
      · exact .inr (.inl ⟨rfl, hp, by rw [horder, hempty, List.append_nil]⟩)
    next hr =>
      obtain ⟨hempty, hp, -⟩ := eq_nil_of_receive? hr
      exact .inr (.inr ⟨rfl, hp, by rw [horder, hempty, List.append_nil]⟩)
  · cases answer? with
    | none =>
      have hact : (s.step .endFetch).1 = .blocked := by simp [step, act, hf]
      obtain ⟨hempty, hp, -⟩ := eq_nil_of_receive? (hs hf)
      rw [hf, hempty, Fetching.held, List.append_nil, List.append_nil] at horder
      exact .inr (.inr ⟨hact, hp, horder⟩)
    | some o =>
      have hact : (s.step .endFetch).1 = .fetched o := by
        simp only [step, act, hf]
        exact (hand_eq _ _ _).1
      rw [hact]
      rw [hf, Fetching.held] at horder
      rcases hi.answered o hf with ho | ⟨rfl, hp, hempty⟩
      · obtain ⟨m, ho⟩ := Option.isSome_iff_exists.mp ho
        refine .inl ⟨o, m, s.channel.messages, rfl, ho, ?_⟩
        rw [horder, ho, List.append_assoc]
        rfl
      · refine .inr (.inl ⟨rfl, hp, ?_⟩)
        rw [horder, hempty, List.append_nil]
        exact List.append_nil _

theorem Queued.isQueue (hi : Queued accepted fetched s.channel s.fetching) (hs : s.IsSettled) :
    s.IsQueue accepted fetched where
  order := hi.order
  accepts p hp := by
    have hopen : s.channel.isOpen = true := hi.isOpen (hasPublisher_of_isAlive hp)
    have haccepts : s.channel.accepts = true := by simp [accepts, hi.isStopped, hopen]
    refine ⟨fun n => ⟨?_, ?_⟩, fun report => ?_⟩
    · simp [accepted?, Channel.accepted?, hp, haccepts]
    · simp [step, act, publish, hp, haccepts]
    · simp [accepted?, Channel.accepted?, hp, hopen]
  oldest x hx m rest hm := by
    rcases hi.result hs hx with ⟨o, m', rest', hr, ho, hm'⟩ | ⟨-, -, hm'⟩ | ⟨-, -, hm'⟩
    · have heq : m' :: rest' = m :: rest := List.append_cancel_left (hm'.symm.trans hm)
      cases heq
      rw [hr]
      exact ho
    all_goals simp [hm] at hm'
  ended x hx := by
    rcases hi.result hs hx with ⟨o, m, rest, hr, ho, hm⟩ | ⟨hr, hp, hm⟩ | ⟨hr, hp, hm⟩
    · have hne : o ≠ .endMarker := by
        rintro rfl
        cases ho
      simp [hr, hm, hne]
    · simp [hr, hp, hm]
    · simp [hr, hp]
  blocked x hx := by
    rcases hi.result hs hx with ⟨o, m, rest, hr, ho, hm⟩ | ⟨hr, hp, hm⟩ | ⟨hr, hp, hm⟩
    · simp [hr, hm]
    · simp [hr, hp]
    · simp [hr, hp, hm]

def forget (s : Session) : Session := { s with hasStopper := false }

theorem forget_live (s : Session) : s.forget.live = s.live := rfl

def Reply.forget (r : Reply) : Reply := (r.1, r.2.1, r.2.2.forget)

theorem forget_hand (o : Outcome) (rs : List Record) (s : Session) :
    Reply.forget (hand o rs s) = hand o rs s.forget := by
  cases o <;> rfl

theorem forget_publishing (s : Session) (p : Nat) (x : Publishing) (result : Result) :
    Reply.forget (s.publishing p x result) = Reply.forget (s.forget.publishing p x result) := by
  have hc : s.forget.channel = s.channel := rfl
  simp only [publishing, hc]
  by_cases hp : s.channel.isAlive p = true
  · rw [if_pos hp, if_pos hp]
    rfl
  · rw [if_neg hp, if_neg hp]
    rfl

/-- Nothing but a stop looks at the stopper. -/
theorem forget_act (s : Session) (hx : x.isPeaceful) (hne : x ≠ .dropStopper) :
    Reply.forget (s.act x) = Reply.forget (s.forget.act x) := by
  cases x with
  | publish p n =>
    have hc : s.forget.channel = s.channel := rfl
    simp only [act, publish, hc]
    by_cases hp : s.channel.isAlive p = true
    · by_cases ha : s.channel.accepts = true
      · rw [if_pos hp, if_pos ha, if_pos hp, if_pos ha]
        rfl
      · rw [if_pos hp, if_neg ha, if_pos hp, if_neg ha]
        rfl
    · rw [if_neg hp, if_neg hp]
      rfl
  | fail p report => exact s.forget_publishing p (.fail p report) .sent
  | isStopped p => exact s.forget_publishing p (.isStopped p) (.stopped s.channel.isStopped)
  | clone p =>
    exact s.forget_publishing p (.clone p) (.publisher s.channel.publishers.length)
  | finish p => exact s.forget_publishing p (.finish p) .done
  | start =>
    simp only [act, forget]
    split <;> rfl
  | fetch =>
    simp only [act, fetch, forget]
    split
    · split
      · simp only [forget_hand, forget]
      · split
        · simp only [forget_hand, forget]
        · rfl
    · rfl
  | beginFetch =>
    simp only [act, forget]
    split <;> rfl
  | endFetch =>
    simp only [act, forget]
    split
    · simp only [forget_hand, forget]
    all_goals rfl
  | unknown => rfl
  | dropStopper => exact (hne rfl).elim
  | stop | dropSource | dropFetcher => cases hx

theorem forget_progress (s : Session) :
    (s.progress.1, s.progress.2.forget) = (s.forget.progress.1, s.forget.progress.2.forget) := by
  simp only [progress, forget]
  split
  · split <;> rfl
  · rfl

theorem forget_step (s : Session) (hx : x.isPeaceful) (hne : x ≠ .dropStopper) :
    Reply.forget (s.step x) = Reply.forget (s.forget.step x) := by
  have hact := s.forget_act hx hne
  unfold step
  generalize s.act x = r at hact ⊢
  generalize s.forget.act x = r' at hact ⊢
  obtain ⟨result, rs, s₁⟩ := r
  obtain ⟨result', rs', s₂⟩ := r'
  simp only [Reply.forget, Prod.mk.injEq] at hact
  obtain ⟨rfl, rfl, hstate⟩ := hact
  have hprogress : (s₁.progress.1, s₁.progress.2.forget) =
      (s₂.progress.1, s₂.progress.2.forget) := by
    rw [forget_progress s₁, hstate, ← forget_progress s₂]
  exact congrArg (fun t : List Record × Session =>
    (result, rs ++ t.1, { t.2 with live := t.2.live - (rs ++ t.1).length })) hprogress

theorem progress_eq (hs : s.IsSettled) : s.progress = ([], s) := by
  unfold progress
  split
  next hf => rw [hs hf]
  next => rfl

theorem step_dropStopper (hs : s.IsSettled) : (s.step .dropStopper).2.2.forget = s.forget := by
  have hdropped : s.forget.progress = ([], s.forget) := progress_eq hs
  have hlive : s.live - ((0 : Nat) : Int) = s.live := Int.sub_zero _
  simp only [step, act]
  split
  · have hnext : progress { s with hasStopper := false } = ([], s.forget) := hdropped
    simp only [hnext, forget, List.append_nil, List.length_nil, hlive]
  · simp only [absent, progress_eq hs, forget, List.append_nil, List.length_nil, hlive]

/-- Whether the stopper is there, or dropped at whatever time, the other steps get the same
answers. -/
theorem answers_without_dropStopper {t : Session} (h : s.forget = t.forget) (hs : s.IsSettled)
    {xs : List Step} (hx : ∀ x ∈ xs, x.isPeaceful) :
    ((xs.zip (s.answers xs)).filter (·.1 ≠ .dropStopper)).map (·.2) =
      t.answers (xs.filter (· ≠ .dropStopper)) := by
  induction xs generalizing s t with
  | nil => rfl
  | cons x rest ih =>
    have hrest : ∀ y ∈ rest, y.isPeaceful := fun y hy => hx y (List.mem_cons_of_mem _ hy)
    rw [answers, List.zip_cons_cons]
    by_cases hdrop : x = .dropStopper
    · subst hdrop
      have hnext : (s.step .dropStopper).2.2.forget = t.forget := by
        rw [step_dropStopper hs, h]
      rw [List.filter_cons_of_neg (by simp), List.filter_cons_of_neg (by simp)]
      exact ih hnext (s.isSettled_step .dropStopper) hrest
    · have hstep : Reply.forget (s.step x) = Reply.forget (t.step x) := by
        rw [s.forget_step (hx x List.mem_cons_self) hdrop, h,
          ← t.forget_step (hx x List.mem_cons_self) hdrop]
      simp only [Reply.forget, Prod.mk.injEq] at hstep
      obtain ⟨hresult, hreleased, hnext⟩ := hstep
      have hlive : (s.step x).2.2.forget.live = (t.step x).2.2.forget.live := by rw [hnext]
      rw [forget_live, forget_live] at hlive
      rw [List.filter_cons_of_pos (by simpa using hdrop),
        List.filter_cons_of_pos (by simpa using hdrop), List.map_cons,
        ih hnext (s.isSettled_step _) hrest, answers, hresult, hreleased, hlive]

/-- **A channel that nobody stops is a queue that ends with its last publisher.** Whatever its
publishers, its stopper and its fetching end do, in whatever order: what was fetched, followed by
what is held and what waits, is what was accepted; a fetch hands out the oldest of it, ends only
when there is nothing left and nobody who could publish, and otherwise waits; and no answer depends
on whether the stopper was dropped. -/
theorem isQueue_of_isPeaceful {xs : List Step} (hx : ∀ x ∈ xs, x.isPeaceful) :
    (after {} xs).IsQueue (acceptedIn {} xs) (fetchedIn {} xs) ∧
    ((xs.zip (answers {} xs)).filter (·.1 ≠ .dropStopper)).map (·.2) =
      answers {} (xs.filter (· ≠ .dropStopper)) := by
  have hstart : Queued [] [] (c := ({} : Session).channel) ({} : Session).fetching := by
    refine ⟨rfl, rfl, List.not_mem_nil, fun _ => rfl, fun o ho => ?_⟩
    cases ho
  have hsettled : ({} : Session).IsSettled := fun hf => by cases hf
  obtain ⟨hqueued, hlast⟩ := queued_after hstart hsettled hx
  exact ⟨hqueued.isQueue hlast, answers_without_dropStopper rfl hsettled hx⟩

/-- Two publishers feed a fetch that was begun before there was anything to fetch, and the stopper
is dropped in between. -/
def twoPublishersSteps : List Step :=
  [.start, .beginFetch, .clone 0, .publish 1 7, .fail 0 ⟨"socket closed", []⟩, .dropStopper,
    .endFetch, .publish 0 8, .finish 1, .fetch, .fetch, .fetch, .finish 0, .fetch]

theorem isQueue_twoPublishers :
    acceptedIn {} twoPublishersSteps =
      [.record ⟨7, 0⟩, .failure ⟨"socket closed", []⟩, .record ⟨8, 1⟩] ∧
    fetchedIn {} twoPublishersSteps = acceptedIn {} twoPublishersSteps ∧
    ((after {} twoPublishersSteps).step .fetch).1 = .fetched .endMarker ∧
    (after {} twoPublishersSteps).IsQueue (acceptedIn {} twoPublishersSteps)
      (fetchedIn {} twoPublishersSteps) ∧
    ((twoPublishersSteps.zip (answers {} twoPublishersSteps)).filter
      (·.1 ≠ .dropStopper)).map (·.2) =
        answers {} (twoPublishersSteps.filter (· ≠ .dropStopper)) :=
  ⟨by decide, by decide, by decide, isQueue_of_isPeaceful (by decide)⟩

end Session

end Handoff.Channel
