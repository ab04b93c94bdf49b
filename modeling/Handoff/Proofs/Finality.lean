import Handoff.Proofs.Queueing
import Handoff.Proofs.Stopping

/-! The end marker of a channel is final: the fetch that returns it leaves the channel closed and
drained, and nothing that is done to such a channel brings anything out of it again. -/
namespace Handoff

open Record (copies)

namespace Channel

variable {c d : Channel} {o : Outcome} {rs : List Record}

/-- A channel goes from one state to another and lets go of some records on the way. -/
structure Keeps (c d : Channel) (rs : List Record) : Prop where
  isSpent : c.IsSpent → d.IsSpent
  conserved : Conserved c.made d.made c.records (d.records ++ rs)

theorem Keeps.refl (c : Channel) : c.Keeps c [] where
  isSpent := id
  conserved := .of_copies_eq fun _ => by rw [List.append_nil]

theorem keeps_publish (c : Channel) (x : Publishing) :
    c.Keeps (c.publish x).1 (Event.releases (c.publish x).2) where
  isSpent hc := hc.publish x
  conserved := c.conserved_publish x

theorem keeps_raise (c : Channel) : c.Keeps c.raise [] where
  isSpent hc := ⟨hc.isOpen, hc.messages⟩
  conserved := .of_copies_eq fun _ => by rw [List.append_nil]; rfl

theorem keeps_wake (c : Channel) : c.Keeps c.wake [] where
  isSpent hc := Stock.isSpent_wake (σ := Channel) hc
  conserved := by
    rw [List.append_nil]
    exact Stock.conserved_wake c

theorem keeps_stop (c : Channel) : c.Keeps (Feed.stop c) [] where
  isSpent hc := c.raise.keeps_wake.isSpent (c.keeps_raise.isSpent hc)
  conserved := by
    have hraise := c.keeps_raise.conserved
    have hwake := c.raise.keeps_wake.conserved
    rw [List.append_nil] at hraise hwake ⊢
    exact hraise.trans hwake

theorem keeps_close (c : Channel) : c.Keeps c.close.1 c.close.2 where
  isSpent _ := ⟨rfl, rfl⟩
  conserved := c.conserved_close

theorem IsSpent.records (hc : c.IsSpent) : c.records = [] := by
  rw [Channel.records, hc.messages]
  rfl

theorem IsSpent.receive? (hc : c.IsSpent) :
    ∃ d, c.receive? = some (d, .endMarker, []) ∧ d.IsSpent := by
  have hnone : (c.hasPublisher && c.isOpen) = false := by rw [hc.isOpen, Bool.and_false]
  refine ⟨c.close.1, ?_, rfl, rfl⟩
  simp [Channel.receive?, hc.messages, hnone, finish, close, hc.records]

namespace Fetch

theorem isSpent (hf : c.Fetch d .endMarker rs) : d.IsSpent := by
  cases hf with
  | finish => exact ⟨rfl, rfl⟩

theorem of_isSpent (hf : c.Fetch d o rs) (hc : c.IsSpent) :
    o = .endMarker ∧ rs = [] ∧ d.IsSpent := by
  cases hf with
  | record hm | failure hm =>
    rw [hc.messages] at hm
    cases hm
  | finish => exact ⟨rfl, hc.records, rfl, rfl⟩

/-- A fetch hands out a record or lets go of all that wait; none is lost. -/
theorem conserved (hf : c.Fetch d o rs) :
    Conserved c.made d.made c.records (d.records ++ o.record?.toList ++ rs) := by
  cases hf with
  | record hm =>
    apply Conserved.of_copies_eq
    intro s
    simp [records, hm, Message.record?]
  | failure hm =>
    apply Conserved.of_copies_eq
    intro s
    simp [records, hm, List.filterMap_cons]
    rfl
  | finish => simpa using c.conserved_close

end Fetch

namespace Session

/-- What an action does: something aside of the fetching end, a move of that end, or a fetch. -/
inductive Move (s : Session) : Reply → Prop where
  | aside {result : Result} {rs : List Record} {c : Channel} {hasStopper : Bool} {live : Int}
      (hr : ∀ o, result ≠ .fetched o) (hc : s.channel.Keeps c rs) :
      Move s (result, rs, { s with channel := c, hasStopper := hasStopper, live := live })
  | start (hf : s.fetching = .unstarted) :
      Move s (.started, [], { s with fetching := .ready, hasStopper := true })
  | close (hf : s.fetching = .unstarted ∨ s.fetching = .ready) :
      Move s (s.close .done)
  | fetch {c : Channel} {o : Outcome} {rs : List Record} (hf : s.fetching = .ready)
      (hc : s.channel.Fetch c o rs) : Move s (hand o rs { s with channel := c })
  | wait (hf : s.fetching = .ready) : Move s (.begun, [], { s with fetching := .begun none })
  | heed (hf : s.fetching = .ready) :
      Move s (.begun, s.channel.records,
        { s with channel := s.channel.close.1, fetching := .begun (some .endMarker) })
  | handOut {o : Outcome} (hf : s.fetching = .begun (some o)) :
      Move s (hand o [] { s with fetching := .ready })

variable {s : Session} {x : Step} {r : Reply}

theorem move_absent (s : Session) : s.Move s.absent := .aside (by simp) (.refl s.channel)

theorem move_publishing (s : Session) (p : Nat) (x : Publishing) {result : Result}
    (hr : ∀ o, result ≠ .fetched o) (hx : Event.releases (s.channel.publish x).2 = []) :
    s.Move (s.publishing p x result) := by
  unfold publishing
  split
  · have hkeeps := s.channel.keeps_publish x
    rw [hx] at hkeeps
    exact .aside hr hkeeps
  · exact s.move_absent

theorem move_publish (s : Session) (p : Nat) (n : UInt32) : s.Move (s.publish p n) := by
  unfold publish
  split
  next hp =>
    have hkeeps := s.channel.keeps_publish (.publish p n)
    split
    next ha =>
      have hrs : Event.releases (s.channel.publish (.publish p n)).2 = [] := by
        simp [Channel.publish, hp, ha]
      rw [hrs] at hkeeps
      exact .aside (by simp) hkeeps
    next ha =>
      have hrs : Event.releases (s.channel.publish (.publish p n)).2 =
          [⟨n, s.channel.made⟩] := by simp [Channel.publish, hp, ha]
      rw [hrs] at hkeeps
      exact .aside (by simp) hkeeps
  next => exact s.move_absent

theorem move_fetch (s : Session) (hf : s.fetching = .ready) : s.Move s.fetch := by
  unfold fetch
  split
  next c o rs hc => exact .fetch hf (fetch_of_enter hc)
  next c rs hc =>
    obtain ⟨rfl, rfl⟩ := eq_of_enter hc
    split
    next d o more hd => exact .fetch hf (fetch_of_receive? hd)
    next => exact .aside (by simp) (.refl s.channel)

theorem move_beginFetch (s : Session) (hf : s.fetching = .ready) : s.Move s.beginFetch := by
  unfold beginFetch
  cases hs : s.channel.isStopped with
  | true =>
    rw [enter_of_isStopped hs]
    exact .heed hf
  | false =>
    rw [enter_of_not_isStopped hs]
    exact .wait hf

theorem move_act (s : Session) (x : Step) : s.Move (s.act x) := by
  cases x with
  | publish p n => exact s.move_publish p n
  | fail p report =>
    refine s.move_publishing p _ (by simp) ?_
    simp only [Channel.publish]
    split <;> rfl
  | isStopped p | clone p | finish p =>
    refine s.move_publishing p _ (by simp) ?_
    simp only [Channel.publish]
    split <;> rfl
  | start =>
    simp only [act]
    split
    next hf => exact .start hf
    next => exact s.move_absent
  | dropSource =>
    simp only [act]
    split
    next hf => exact .close (.inl hf)
    next => exact s.move_absent
  | dropFetcher =>
    simp only [act]
    split
    next hf => exact .close (.inr hf)
    next => exact s.move_absent
  | dropStopper =>
    simp only [act]
    split
    · exact .aside (by simp) (.refl s.channel)
    · exact s.move_absent
  | stop =>
    simp only [act]
    split
    · exact .aside (by simp) s.channel.keeps_stop
    · exact s.move_absent
  | fetch =>
    simp only [act]
    split
    next hf => exact s.move_fetch hf
    next => exact s.move_absent
  | beginFetch =>
    simp only [act]
    split
    next hf => exact s.move_beginFetch hf
    next => exact s.move_absent
  | endFetch =>
    simp only [act]
    split
    next o hf => exact .handOut hf
    next => exact .aside (by simp) (.refl s.channel)
    next => exact s.move_absent
  | unknown => exact s.move_absent

def held (s : Session) : List Record := s.fetching.held.filterMap Message.record?

/-- The records that are neither with a publisher nor released. -/
def records (s : Session) : List Record := s.channel.records ++ s.held

def releasedIn (s : Session) (xs : List Step) : List Record :=
  (s.answers xs).flatMap fun answer => answer.2.1

theorem releases_hand (o : Outcome) (rs : List Record) (s : Session) :
    (hand o rs s).2.1 = rs ++ o.record?.toList := by
  cases o with
  | record r => rfl
  | endMarker | failed _ | panicked _ => exact (List.append_nil rs).symm

theorem held_of_fetching {o : Outcome} (hf : s.fetching = .begun (some o)) :
    s.held = o.record?.toList := by
  rw [held, hf]
  cases o <;> rfl

theorem held_of_ready (hf : s.fetching = .ready) : s.held = [] := by
  rw [held, hf]
  rfl

abbrev Conserves (s s' : Session) (rs : List Record) : Prop :=
  Conserved s.channel.made s'.channel.made s.records (s'.records ++ rs)

theorem conserves_move (hm : s.Move r) : s.Conserves r.2.2 r.2.1 := by
  cases hm with
  | aside hr hc =>
    refine hc.conserved.within fun n => ?_
    simp [records, held]
    omega
  | start hf =>
    apply Conserved.of_copies_eq
    intro n
    simp [records, held, hf, Fetching.held]
  | close hf =>
    have hheld : s.held = [] := by
      rw [held]
      rcases hf with hf | hf <;> rw [hf] <;> rfl
    refine s.channel.conserved_close.within fun n => ?_
    rw [records, hheld]
    simp [records, held, close, Fetching.held, Channel.close]
  | @fetch c o rs hf hc =>
    rw [(hand_eq _ _ _).2, releases_hand]
    have hheld : held { s with channel := c } = s.held := rfl
    refine hc.conserved.within fun n => ?_
    rw [records, records, hheld, held_of_ready hf]
    simp
    omega
  | wait hf =>
    apply Conserved.of_copies_eq
    intro n
    simp [records, held, hf, Fetching.held]
  | heed hf =>
    refine s.channel.conserved_close.within fun n => ?_
    rw [records, held_of_ready hf]
    simp [records, held, Fetching.held, Channel.close, Outcome.message?]
  | @handOut o hf =>
    rw [(hand_eq _ _ _).2, releases_hand]
    apply Conserved.of_copies_eq
    intro n
    rw [records, held_of_fetching hf]
    simp [records, held, Fetching.held]

theorem conserves_progress (s : Session) : s.Conserves s.progress.2 s.progress.1 := by
  unfold progress
  split
  next hf =>
    split
    next c o rs hc =>
      have hheld : s.held = [] := by
        rw [held, hf]
        rfl
      refine (fetch_of_receive? hc).conserved.within fun n => ?_
      rw [records, records, hheld, held_of_fetching rfl]
      simp
    next => exact .of_copies_eq fun _ => by rw [List.append_nil]
  next => exact .of_copies_eq fun _ => by rw [List.append_nil]

theorem conserves_step (s : Session) (x : Step) :
    s.Conserves (s.step x).2.2 (s.step x).2.1 := by
  have hact := conserves_move (s.move_act x)
  have hprogress := (s.act x).2.2.conserves_progress
  have hrecords : (s.step x).2.2.records = (s.act x).2.2.progress.2.records := rfl
  have hreleased : (s.step x).2.1 = (s.act x).2.1 ++ (s.act x).2.2.progress.1 := rfl
  refine hact.trans (hprogress.within fun n => ?_)
  rw [hrecords, hreleased]
  simp
  omega

theorem conserves_after (s : Session) (xs : List Step) :
    s.Conserves (s.after xs) (s.releasedIn xs) := by
  induction xs generalizing s with
  | nil => exact .of_copies_eq fun _ => by rw [releasedIn, answers, List.flatMap_nil,
      List.append_nil, after]
  | cons x rest ih =>
    have hreleased : s.releasedIn (x :: rest) =
        (s.step x).2.1 ++ (s.step x).2.2.releasedIn rest := rfl
    refine (s.conserves_step x).trans ((ih (s.step x).2.2).within fun n => ?_)
    rw [after, hreleased]
    simp
    omega

/-- The channel is spent, and so are the hands of a begun fetch. -/
structure IsOver (s : Session) : Prop where
  isSpent : s.channel.IsSpent
  answered : ∀ o, s.fetching = .begun (some o) → o = .endMarker

/-- A fetch has returned the end marker, whether it was asked for its answer or not. -/
def Ended (r : Reply) : Prop :=
  r.1 = .fetched .endMarker ∨ r.2.2.fetching = .begun (some .endMarker)

/-- Nobody who holds the end marker of a channel holds it too early. -/
def Marked (s : Session) : Prop := s.fetching = .begun (some .endMarker) → s.channel.IsSpent

theorem isOver_move (hm : s.Move r) (hs : s.IsOver) :
    r.2.2.IsOver ∧ ∀ o, r.1 = .fetched o → o = .endMarker := by
  cases hm with
  | aside hr hc => exact ⟨⟨hc.isSpent hs.isSpent, hs.answered⟩, fun o ho => (hr o ho).elim⟩
  | start hf =>
    refine ⟨⟨hs.isSpent, fun o ho => ?_⟩, fun o ho => ?_⟩ <;> cases ho
  | close hf =>
    refine ⟨⟨⟨rfl, rfl⟩, fun o ho => ?_⟩, fun o ho => ?_⟩ <;> cases ho
  | @fetch c o rs hf hc =>
    obtain ⟨rfl, rfl, hd⟩ := hc.of_isSpent hs.isSpent
    refine ⟨⟨hd, hs.answered⟩, fun o ho => ?_⟩
    cases ho
    rfl
  | wait hf =>
    refine ⟨⟨hs.isSpent, fun o ho => ?_⟩, fun o ho => ?_⟩ <;> cases ho
  | heed hf =>
    refine ⟨⟨⟨rfl, rfl⟩, fun o ho => ?_⟩, fun o ho => ?_⟩ <;> cases ho
    rfl
  | handOut hf =>
    obtain rfl := hs.answered _ hf
    refine ⟨⟨hs.isSpent, fun o ho => ?_⟩, fun o ho => ?_⟩ <;> cases ho
    rfl

theorem isOver_progress (hs : s.IsOver) : s.progress.2.IsOver := by
  unfold progress
  split
  next hf =>
    obtain ⟨c, hc, hspent⟩ := hs.isSpent.receive?
    rw [hc]
    refine ⟨hspent, fun o ho => ?_⟩
    cases ho
    rfl
  next => exact hs

theorem isOver_step (hs : s.IsOver) (x : Step) :
    (s.step x).2.2.IsOver ∧ ∀ o, (s.step x).1 = .fetched o → o = .endMarker := by
  obtain ⟨hover, hresult⟩ := isOver_move (s.move_act x) hs
  obtain ⟨hspent, hanswered⟩ := isOver_progress hover
  exact ⟨⟨hspent, hanswered⟩, hresult⟩

theorem isOver_after (hs : s.IsOver) (xs : List Step) : (s.after xs).IsOver := by
  induction xs generalizing s with
  | nil => exact hs
  | cons x rest ih => exact ih (isOver_step hs x).1

theorem marked_start : Marked {} := fun hf => by cases hf

theorem marked_move (hm : s.Move r) (hs : s.Marked) :
    r.2.2.Marked ∧ (r.1 = .fetched .endMarker → r.2.2.IsOver) := by
  cases hm with
  | aside hr hc => exact ⟨fun hf => hc.isSpent (hs hf), fun hend => (hr _ hend).elim⟩
  | start hf | close hf | wait hf =>
    refine ⟨fun ho => ?_, fun hend => ?_⟩
    · cases ho
    · cases hend
  | @fetch c o rs hf hc =>
    rw [(hand_eq _ _ _).1, (hand_eq _ _ _).2]
    have hanswered : ∀ a?, s.fetching ≠ .begun a? := by simp [hf]
    refine ⟨fun ho => (hanswered _ ho).elim, fun hend => ?_⟩
    cases hend
    exact ⟨hc.isSpent, fun o ho => (hanswered _ ho).elim⟩
  | heed hf => exact ⟨fun _ => ⟨rfl, rfl⟩, fun hend => by cases hend⟩
  | @handOut o hf =>
    rw [(hand_eq _ _ _).1, (hand_eq _ _ _).2]
    refine ⟨fun ho => ?_, fun hend => ?_⟩
    · cases ho
    · cases hend
      refine ⟨hs hf, fun o ho => ?_⟩
      cases ho

theorem marked_progress (hs : s.Marked) : s.progress.2.Marked := by
  unfold progress
  split
  next hf =>
    split
    next c o rs hc =>
      intro ho
      cases ho
      exact (fetch_of_receive? hc).isSpent
    next => exact hs
  next => exact hs

theorem marked_step (hs : s.Marked) (x : Step) : (s.step x).2.2.Marked :=
  marked_progress (marked_move (s.move_act x) hs).1

theorem marked_after (hs : s.Marked) (xs : List Step) : (s.after xs).Marked := by
  induction xs generalizing s with
  | nil => exact hs
  | cons x rest ih => exact ih (marked_step hs x)

/-- From the moment at which a fetch has returned the end marker the channel is over. -/
theorem isOver_of_ended (hs : s.Marked) (hx : Ended (s.step x)) : (s.step x).2.2.IsOver := by
  rcases hx with hresult | hf
  · have hover := (marked_move (s.move_act x) hs).2 hresult
    obtain ⟨hspent, hanswered⟩ := isOver_progress hover
    exact ⟨hspent, hanswered⟩
  · refine ⟨marked_step hs x hf, fun o ho => ?_⟩
    rw [hf] at ho
    cases ho
    rfl

/-- What a channel is like whose end marker was returned, with all records released so far. -/
structure IsFinal (released : List Record) (s : Session) : Prop where
  isClosed : s.channel.isOpen = false
  isEmpty : s.channel.messages = []
  /-- Every record that was ever made is released, those that were queued among them. -/
  released : ∀ n < s.channel.made, copies n released = 1
  /-- A fetch returns the end marker at once, -/
  fetch : ∀ x, s.IsFetch x → (s.step x).1 = .fetched .endMarker
  /-- and none waits, -/
  unblocked : s.fetching ≠ .begun none
  /-- a publisher gets his record back, -/
  publish : ∀ p id, s.channel.isAlive p →
    (s.step (.publish p id)).1 = .rejected ⟨id, s.channel.made⟩
  /-- and whatever is done brings neither a record nor a failure out. -/
  silent : ∀ x o, (s.step x).1 = .fetched o → o = .endMarker

theorem IsOver.fetched (hs : s.IsOver) (hsettled : s.IsSettled) (hx : s.IsFetch x) :
    (s.step x).1 = .fetched .endMarker := by
  suffices ∃ o, (s.step x).1 = .fetched o by
    obtain ⟨o, ho⟩ := this
    rw [ho, (isOver_step hs x).2 o ho]
  rcases hx with ⟨rfl, hf⟩ | ⟨rfl, answer?, hf⟩
  · have hact : (s.step .fetch).1 = s.fetch.1 := by simp [step, act, hf]
    rw [hact, fetch]
    split
    next c o rs hc => exact ⟨o, (hand_eq _ _ _).1⟩
    next c rs hc =>
      obtain ⟨rfl, rfl⟩ := eq_of_enter hc
      obtain ⟨d, hd, -⟩ := hs.isSpent.receive?
      rw [hd]
      exact ⟨_, (hand_eq _ _ _).1⟩
  · cases answer? with
    | none =>
      obtain ⟨d, hd, -⟩ := hs.isSpent.receive?
      rw [hsettled hf] at hd
      cases hd
    | some o =>
      refine ⟨o, ?_⟩
      simp only [step, act, hf]
      exact (hand_eq _ _ _).1

theorem IsOver.records (hs : s.IsOver) : s.records = [] := by
  have hheld : s.held = [] := by
    cases hf : s.fetching with
    | begun a? =>
      cases a? with
      | none => rw [held, hf]; rfl
      | some o =>
        obtain rfl := hs.answered o hf
        exact held_of_fetching hf
    | unstarted | ready | gone => rw [held, hf]; rfl
  rw [Session.records, hs.isSpent.records, hheld]
  rfl

theorem copies_le_of_ended (hs : s.Marked) (hx : Ended (s.step x)) (n : Nat) :
    copies n s.channel.records ≤ copies n (s.step x).2.1 := by
  have hcopies := (s.conserves_step x).copies n
  have hover := isOver_of_ended hs hx
  rw [hover.records, Session.records, Record.copies_append, List.nil_append] at hcopies
  omega

theorem IsOver.isFinal {released : List Record} (hs : s.IsOver) (hsettled : s.IsSettled)
    (hreleased : Conserved 0 s.channel.made [] (s.records ++ released)) :
    s.IsFinal released where
  isClosed := hs.isSpent.isOpen
  isEmpty := hs.isSpent.messages
  released n hn := by
    have hcopies := hreleased.copies n
    have hborn : born 0 s.channel.made n = 1 := if_pos ⟨Nat.zero_le n, hn⟩
    rw [hs.records, hborn] at hcopies
    simpa using hcopies.symm
  fetch x hx := hs.fetched hsettled hx
  unblocked hf := by
    obtain ⟨d, hd, -⟩ := hs.isSpent.receive?
    rw [hsettled hf] at hd
    cases hd
  publish p id hp := by
    have ha : s.channel.accepts = false := by rw [accepts, hs.isSpent.isOpen, Bool.and_false]
    simp [step, act, publish, hp, ha]
  silent x := (isOver_step hs x).2

theorem after_append (s : Session) (xs ys : List Step) :
    s.after (xs ++ ys) = (s.after xs).after ys := by
  induction xs generalizing s with
  | nil => rfl
  | cons x rest ih => exact ih (s.step x).2.2

theorem isSettled_after (hs : s.IsSettled) (xs : List Step) : (s.after xs).IsSettled := by
  induction xs generalizing s with
  | nil => exact hs
  | cons x rest ih => exact ih (s.isSettled_step x)

theorem isFinal_of_ended {xs : List Step} (hx : Ended ((after {} xs).step x)) (ys : List Step) :
    (after {} (xs ++ x :: ys)).IsFinal (releasedIn {} (xs ++ x :: ys)) := by
  have hsettled : IsSettled {} := fun hf => by cases hf
  have hover : (after {} (xs ++ x :: ys)).IsOver := by
    rw [after_append, after]
    exact isOver_after (isOver_of_ended (marked_after marked_start xs) hx) ys
  exact hover.isFinal (isSettled_after hsettled _) (conserves_after {} _)

end Session

end Channel

namespace Race

open Channel

variable {m m' : Race} {label : Label}

/-- The records for which a publication or a fetch has come to its end, or whose publisher still
holds them. -/
def settled (m : Race) : List Record :=
  m.depot.hands ++ m.answers.filterMap Outcome.record? ++ Event.releases m.depot.noted

def records (m : Race) : List Record := m.channel.records ++ m.settled

theorem conserved_fed {c : Channel} {rs : List Record} (hc : m.channel.Keeps c rs) :
    Conserved m.channel.made c.made m.records (c.records ++ (m.fed c rs).settled) := by
  refine hc.conserved.within fun n => ?_
  simp [records, settled, fed]
  omega

theorem conserved_told {c : Channel} {o : Outcome} {rs : List Record}
    (hc : m.channel.Fetch c o rs) :
    Conserved m.channel.made c.made m.records ((m.fed c rs).told o).records := by
  refine hc.conserved.within fun n => ?_
  have hanswers : ((m.fed c rs).told o).answers.filterMap Outcome.record? =
      m.answers.filterMap Outcome.record? ++ o.record?.toList := by
    rw [told, List.filterMap_append]
    cases o <;> rfl
  simp only [records, settled, hanswers]
  simp [fed, told, channel]
  omega

theorem conserved_step (hs : Step m label m') :
    Conserved m.channel.made m'.channel.made m.records m'.records := by
  cases hs with
  | wait hf hs => exact conserved_fed (.refl m.channel)
  | heed hf hs => exact conserved_told (.finish (.inl hs))
  | receive hf hc => exact conserved_told hc
  | retire hf => exact conserved_fed m.channel.keeps_close
  | raise => exact conserved_fed m.channel.keeps_raise
  | wake hw => exact conserved_fed m.channel.keeps_wake
  | supply hd =>
    have hsupply := Depot.conserved_supply? hd
    refine hsupply.within fun n => ?_
    simp [records, settled, channel, Depot.records, Stock.held]
    omega

theorem conserved_run {labels : List Label} (hr : m.run? labels = some m') :
    Conserved m.channel.made m'.channel.made m.records m'.records := by
  rw [run?_eq_foldlM] at hr
  exact foldlM_keeps
    (P := fun m' : Race => Conserved m.channel.made m'.channel.made m.records m'.records)
    (fun _ _ _ _ ha hs => ha.trans (conserved_step (step_of_step? hs)))
    (.of_copies_eq fun _ => rfl) hr

theorem isSpent_step (hs : Step m label m') (hm : m.channel.IsSpent) :
    m'.channel.IsSpent ∧
      (m'.answers = m.answers ∨ m'.answers = m.answers ++ [.endMarker]) := by
  cases hs with
  | wait hf hs => exact ⟨hm, .inl rfl⟩
  | heed hf hs => exact ⟨⟨rfl, rfl⟩, .inr rfl⟩
  | receive hf hc =>
    obtain ⟨rfl, -, hc⟩ := hc.of_isSpent hm
    exact ⟨hc, .inr rfl⟩
  | retire hf => exact ⟨⟨rfl, rfl⟩, .inl rfl⟩
  | raise => exact ⟨m.channel.keeps_raise.isSpent hm, .inl rfl⟩
  | wake hw => exact ⟨m.channel.keeps_wake.isSpent hm, .inl rfl⟩
  | supply hd =>
    have ht := Depot.takes_supply? hd
    obtain ⟨-, hmessages⟩ := (Change.take ht).of_closed hm.isOpen
    exact ⟨⟨ht.isOpen.trans hm.isOpen, hmessages.trans hm.messages⟩, .inl rfl⟩

theorem isSpent_run {labels : List Label} (hr : m.run? labels = some m')
    (hm : m.channel.IsSpent) :
    m'.channel.IsSpent ∧ ∃ os, m'.answers = m.answers ++ os ∧ ∀ o ∈ os, o = .endMarker := by
  rw [run?_eq_foldlM] at hr
  refine foldlM_keeps (P := fun m' : Race => m'.channel.IsSpent ∧
      ∃ os, m'.answers = m.answers ++ os ∧ ∀ o ∈ os, o = .endMarker)
    (fun a b label _ hkept hs => ?_) ⟨hm, [], (List.append_nil _).symm, by simp⟩ hr
  obtain ⟨hspent, os, hos, hall⟩ := hkept
  obtain ⟨hnext, hanswers⟩ := isSpent_step (step_of_step? hs) hspent
  rcases hanswers with hsame | hend
  · exact ⟨hnext, os, hsame.trans hos, hall⟩
  · refine ⟨hnext, os ++ [.endMarker], by rw [hend, hos, List.append_assoc], fun o ho => ?_⟩
    rcases List.mem_append.mp ho with ho | ho
    · exact hall o ho
    · exact List.mem_singleton.mp ho

def Marked (m : Race) : Prop := .endMarker ∈ m.answers → m.channel.IsSpent

theorem marked_step (hs : Step m label m') (hm : m.Marked) : m'.Marked := by
  have hkept (hanswers : m'.answers = m.answers) : m'.Marked := fun hend =>
    (isSpent_step hs (hm (hanswers ▸ hend))).1
  have hs' := hs
  cases hs' with
  | heed hf hs => exact fun _ => ⟨rfl, rfl⟩
  | @receive c o rs hf hc =>
    intro hend
    rcases List.mem_append.mp hend with hearlier | hnow
    · exact (hc.of_isSpent (hm hearlier)).2.2
    · obtain rfl := List.mem_singleton.mp hnow
      exact hc.isSpent
  | wait | retire | raise | wake | supply => exact hkept rfl

theorem marked_run {labels : List Label} (hr : m.run? labels = some m') (hm : m.Marked) :
    m'.Marked := by
  rw [run?_eq_foldlM] at hr
  exact foldlM_keeps (fun _ _ _ _ ha hs => marked_step (step_of_step? hs) ha) hm hr

/-- What a channel is like whose end marker was returned while stops and publications were on their
way: those that are halfway bring nothing out either. -/
structure IsFinal (m : Race) : Prop where
  isClosed : m.channel.isOpen = false
  isEmpty : m.channel.messages = []
  settled : ∀ n < m.channel.made, copies n m.settled = 1
  /-- A fetch returns the end marker over its look at the flag or goes on to a receive, -/
  check : m.fetcher = .idle → ∃ m', m.step? .check = some m' ∧
    (m'.answers = m.answers ++ [.endMarker] ∨ m'.fetcher = .waiting ∧ m'.channel = m.channel)
  /-- and that finds the end, too. -/
  receive : m.fetcher = .waiting → ∃ m', m.step? .receive = some m' ∧
    m'.answers = m.answers ++ [.endMarker]
  publish : ∀ p id, m.channel.isAlive p → ∃ m', m.step? (.supply (.ask (.publish p id))) = some m' ∧
    m'.depot.noted = m.depot.noted ++
      [.rejected ⟨id, m.channel.made⟩, .released ⟨id, m.channel.made⟩]
  /-- A publisher who has looked for a stop before gets his record back as well. -/
  send : ∀ p r, r ∈ m.depot.hands → ∃ m', m.step? (.supply (.send p r)) = some m' ∧
    m'.depot.hands = m.depot.hands ∧ m'.depot.noted = m.depot.noted ++ [.rejected r]
  silent : ∀ more m', m.run? more = some m' →
    ∃ os, m'.answers = m.answers ++ os ∧ ∀ o ∈ os, o = .endMarker

theorem isFinal_of_isSpent (hm : m.channel.IsSpent)
    (hrecords : Conserved 0 m.channel.made [] m.records) : m.IsFinal where
  isClosed := hm.isOpen
  isEmpty := hm.messages
  settled n hn := by
    have hcopies := hrecords.copies n
    have hborn : born 0 m.channel.made n = 1 := if_pos ⟨Nat.zero_le n, hn⟩
    rw [records, hm.records, hborn] at hcopies
    simpa using hcopies.symm
  check hf := by
    cases hs : m.channel.isStopped with
    | true =>
      refine ⟨(m.fed m.channel.close.1 m.channel.close.2).told .endMarker, ?_, .inl rfl⟩
      simp [step?, hf, enter_of_isStopped hs]
    | false =>
      refine ⟨{ m.fed m.channel [] with fetcher := .waiting }, ?_, .inr ⟨rfl, rfl⟩⟩
      simp [step?, hf, enter_of_not_isStopped hs]
  receive hf := by
    obtain ⟨c, hc, -⟩ := hm.receive?
    exact ⟨(m.fed c []).told .endMarker, by simp [step?, hf, hc], rfl⟩
  publish p id hp := by
    have ha : m.channel.accepts = false := by rw [accepts, hm.isOpen, Bool.and_false]
    have hpublish : (m.channel.publish (.publish p id)).2 =
        [.rejected ⟨id, m.channel.made⟩, .released ⟨id, m.channel.made⟩] := by
      simp [Channel.publish, hp, ha]
    exact ⟨_, rfl, congrArg (m.depot.noted ++ ·) hpublish⟩
  send p r hr := by
    have hsend : Stock.send? p r m.depot.feed = none := by
      have ho : m.depot.feed.isOpen = false := hm.isOpen
      simp [Stock.send?, Channel.send?, ho]
    refine ⟨{ m with depot := { m.depot with noted := m.depot.noted ++ [.rejected r] } }, ?_,
      rfl, rfl⟩
    simp [step?, Depot.supply?, hr, hsend]
  silent more m' hr := (isSpent_run hr hm).2

theorem isFinal_of_mem {labels : List Label} (hr : run? {} labels = some m)
    (hend : .endMarker ∈ m.answers) : m.IsFinal := by
  have hmarked : Marked {} := fun hmem => by cases hmem
  exact isFinal_of_isSpent (marked_run hr hmarked hend) (conserved_run hr)

end Race

namespace Channel

open Session in
/-- **The end marker of a channel is final.** Whatever is done to a channel, one operation after the
other or in halves that mix: once a fetch has returned the end marker, what was queued is released,
the channel is closed and empty, it takes nothing in, and nothing but the end comes out. -/
theorem isFinal_of_endMarker :
    (∀ (xs : List Step) (x : Step) (ys : List Step), Ended ((after {} xs).step x) →
      (∀ n, copies n (after {} xs).channel.records ≤ copies n ((after {} xs).step x).2.1) ∧
      (after {} (xs ++ x :: ys)).IsFinal (releasedIn {} (xs ++ x :: ys))) ∧
    ∀ (labels : List Race.Label) (m : Race), Race.run? {} labels = some m →
      .endMarker ∈ m.answers → m.IsFinal := by
  refine ⟨fun xs x ys hx => ⟨?_, isFinal_of_ended hx ys⟩, fun labels m hr hend => ?_⟩
  · exact copies_le_of_ended (marked_after marked_start xs) hx
  · exact Race.isFinal_of_mem hr hend

/-- Two records wait when the channel is stopped; one was fetched before. -/
def stoppedSteps : List Session.Step :=
  [.start, .publish 0 5, .clone 0, .publish 1 7, .fail 0 ⟨"socket closed", []⟩, .fetch,
    .publish 0 8, .stop]

def lateSteps : List Session.Step :=
  [.publish 1 9, .fail 0 ⟨"socket closed", []⟩, .stop, .beginFetch, .clone 1, .finish 0, .endFetch]

/-- A publisher has looked for a stop before two stops come between; the second sends its wake-up
after the first has ended the fetch that waited. -/
def halfwayLabels : List Race.Label :=
  [.check, .supply (.make 7), .raise, .raise, .wake, .receive, .supply (.send 0 ⟨7, 0⟩), .wake]

open Session in
theorem isFinal_stopped_halfway :
    ((after {} stoppedSteps).step .fetch).1 = .fetched .endMarker ∧
    (after {} stoppedSteps).channel.records = [⟨7, 1⟩, ⟨8, 2⟩] ∧
    ((after {} stoppedSteps).step .fetch).2.1 = [⟨7, 1⟩, ⟨8, 2⟩] ∧
    (after {} (stoppedSteps ++ .fetch :: lateSteps)).channel.made = 4 ∧
    (after {} (stoppedSteps ++ .fetch :: lateSteps)).IsFinal
      (releasedIn {} (stoppedSteps ++ .fetch :: lateSteps)) ∧
    ∃ m, Race.run? {} halfwayLabels = some m ∧ m.answers = [.endMarker] ∧
      m.depot.noted = [.rejected ⟨7, 0⟩] ∧ m.depot.hands = [⟨7, 0⟩] ∧ m.IsFinal := by
  have hends : (Race.run? {} halfwayLabels).map
      (fun m => (m.answers, m.depot.noted, m.depot.hands)) =
        some ([.endMarker], [.rejected ⟨7, 0⟩], [⟨7, 0⟩]) := by decide
  obtain ⟨m, hr, hm⟩ := Option.map_eq_some_iff.mp hends
  simp only [Prod.mk.injEq] at hm
  obtain ⟨hanswers, hnoted, hhands⟩ := hm
  have hfetched : ((after {} stoppedSteps).step .fetch).1 = .fetched .endMarker := by decide
  obtain ⟨-, hfinal⟩ := isFinal_of_endMarker.1 stoppedSteps .fetch lateSteps (.inl hfetched)
  have hrace := isFinal_of_endMarker.2 halfwayLabels m hr (by rw [hanswers]; decide)
  exact ⟨hfetched, by decide, by decide, by decide, hfinal, m, hr, hanswers, hnoted, hhands, hrace⟩

end Channel

end Handoff
