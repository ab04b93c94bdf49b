import Handoff.Channel.Publisher
import Handoff.Proofs.Finality
import Handoff.Proofs.Requests

/-! A record that is published is taken in or handed back, and there is nothing in between: it comes
back once a stop was requested or nobody can fetch it any more, and then no fetch returns it. -/
namespace Handoff

open Record (copies)

theorem Record.one_le_copies {r : Record} {rs : List Record} (hr : r ∈ rs) :
    1 ≤ copies r.serial rs := by
  rw [copies_erase hr]
  simp

theorem Record.one_le_copies_out {r : Record} {hands : List Record} {es : List Event}
    (hi : r ∈ hands ∨ .released r ∈ es) :
    1 ≤ copies r.serial hands + copies r.serial (Event.releases es) := by
  rcases hi with hh | hn
  · exact Nat.le_add_right_of_le (one_le_copies hh)
  · exact Nat.le_add_left_of_le (one_le_copies (List.mem_filterMap.mpr ⟨_, hn, rfl⟩))

namespace Channel

/-- What can be read off a channel of what has happened to it. -/
structure Knows (stopped gone : Prop) (c : Channel) : Prop where
  isStopped : c.isStopped ↔ stopped
  isClosed : gone → c.isOpen = false
  closed : c.isOpen = false → stopped ∨ c.hasPublisher = false ∨ gone

/-- How a channel answers its publishers after a stop was requested or its fetching end has gone, or
before that. -/
structure Serves (stopped gone : Prop) (c : Channel) : Prop where
  /-- A record is handed back, that very one, and the channel is as it was, -/
  handsBack : ∀ p, c.isAlive p → ∀ r, c.offer r = (.error r, c) ↔ stopped ∨ gone
  /-- or it is taken in behind all that wait. -/
  takesIn : ∀ p, c.isAlive p → ∀ r,
    c.offer r = (.ok (), { c with messages := c.messages ++ [.record r] }) ↔ ¬(stopped ∨ gone)
  /-- Who makes a record for the purpose lets go of it when it is handed back. -/
  publish : ∀ p, c.isAlive p → ∀ id,
    (stopped ∨ gone → c.publish (.publish p id) =
      ({ c with made := c.made + 1 }, [.rejected ⟨id, c.made⟩, .released ⟨id, c.made⟩])) ∧
    (¬(stopped ∨ gone) → c.publish (.publish p id) =
      ({ c with made := c.made + 1, messages := c.messages ++ [.record ⟨id, c.made⟩] },
        [.published ⟨id, c.made⟩]))
  /-- It makes no difference which publisher is asked. -/
  agree : ∀ p q, c.isAlive p → c.isAlive q → ∀ id,
    c.publish (.publish p id) = c.publish (.publish q id)
  flag : ∀ p, c.isAlive p → (c.publish (.isStopped p) = (c, [.sawStopped true]) ↔ stopped)

/-- How a publication ends that has looked for a stop on a channel and sends its record to what has
become of the channel meanwhile. -/
structure ServesLate (c d : Channel) (before after : Prop) : Prop where
  result : ∀ p, d.isAlive p → ∀ r, d.offerAfter c.isStopped r = (.error r, d) ∨
    d.offerAfter c.isStopped r = (.ok (), { d with messages := d.messages ++ [.record r] })
  /-- What had happened before its first half is heeded, -/
  handsBack : before → ∀ p, d.isAlive p → ∀ r, d.offerAfter c.isStopped r = (.error r, d)
  /-- and nothing is handed back over what has not happened before its second half. -/
  reason : ∀ p, d.isAlive p → ∀ r, d.offerAfter c.isStopped r = (.error r, d) → after

variable {c d : Channel} {stopped gone stopped' gone' : Prop}

/-- The two results of a publication differ in what they return. -/
theorem offerAfter_eq_error_iff (sawStop : Bool) (r : Record) :
    c.offerAfter sawStop r = (.error r, c) ↔ sawStop = true ∨ c.isOpen = false := by
  refine ⟨fun heq => ?_, fun h => offerAfter_eq_error h r⟩
  by_cases h : sawStop = true ∨ c.isOpen = false
  · exact h
  · rw [not_or, Bool.not_eq_true, Bool.not_eq_false] at h
    rw [offerAfter_eq_ok h.1 h.2] at heq
    cases heq

theorem offerAfter_eq_ok_iff (sawStop : Bool) (r : Record) :
    c.offerAfter sawStop r = (.ok (), { c with messages := c.messages ++ [.record r] }) ↔
      ¬(sawStop = true ∨ c.isOpen = false) := by
  refine ⟨fun heq h => ?_, fun hn => ?_⟩
  · rw [offerAfter_eq_error h] at heq
    cases heq
  · rw [not_or, Bool.not_eq_true, Bool.not_eq_false] at hn
    exact offerAfter_eq_ok hn.1 hn.2 r

namespace Knows

/-- A living publisher finds the channel stopped or closed exactly after a stop or the fetcher's
end. -/
theorem turnsAway_iff (hc : c.Knows stopped gone) {p : Nat} (hp : c.isAlive p) :
    c.isStopped = true ∨ c.isOpen = false ↔ stopped ∨ gone := by
  rw [hc.isStopped]
  refine ⟨fun h => h.elim .inl fun ho => ?_, Or.imp_right hc.isClosed⟩
  have hpub := hasPublisher_of_isAlive hp
  refine (hc.closed ho).imp_right fun h => h.resolve_left fun hnone => ?_
  rw [hnone] at hpub
  cases hpub

theorem serves (hc : c.Knows stopped gone) : c.Serves stopped gone where
  handsBack p hp r := (offerAfter_eq_error_iff _ r).trans (hc.turnsAway_iff hp)
  takesIn p hp r := (offerAfter_eq_ok_iff _ r).trans (not_congr (hc.turnsAway_iff hp))
  publish p hp id := by
    have hiff := hc.turnsAway_iff hp
    constructor
    · intro h
      have hback := offerAfter_eq_error (c := { c with made := c.made + 1 }) (hiff.mpr h)
        ⟨id, c.made⟩
      rw [publish_eq_offer hp, offer, hback]
    · intro h
      have hin := (offerAfter_eq_ok_iff (c := { c with made := c.made + 1 }) c.isStopped
        ⟨id, c.made⟩).mpr (mt hiff.mp h)
      rw [publish_eq_offer hp, offer, hin]
  agree p q hp hq id := (publish_eq_offer hp id).trans (publish_eq_offer hq id).symm
  flag p hp := by
    rw [← hc.isStopped]
    cases hs : c.isStopped <;> simp [Channel.publish, hp, hs]

theorem servesLate (hc : c.Knows stopped gone) (hd : d.Knows stopped' gone')
    (hs : stopped → stopped') (hg : gone → gone') :
    c.ServesLate d (stopped ∨ gone) (stopped' ∨ gone') where
  result p _ r := by
    by_cases h : c.isStopped = true ∨ d.isOpen = false
    · exact .inl (offerAfter_eq_error h r)
    · exact .inr ((offerAfter_eq_ok_iff _ r).mpr h)
  handsBack h p _ r :=
    offerAfter_eq_error (h.imp hc.isStopped.mpr fun hgone => hd.isClosed (hg hgone)) r
  reason p hp r heq := by
    refine (hd.turnsAway_iff hp).mp ?_
    refine ((offerAfter_eq_error_iff _ r).mp heq).imp_left fun hstop => ?_
    exact hd.isStopped.mpr (hs (hc.isStopped.mp hstop))

end Knows

namespace Session

variable {s : Session} {x : Step}

def did (xs : List Step) (x : Step) : Prop :=
  ∃ before rest, xs = before ++ x :: rest ∧ ((after {} before).step x).1 = .done

theorem did_append {xs : List Step} (hd : did xs x) (ys : List Step) : did (xs ++ ys) x := by
  obtain ⟨before, rest, rfl, hdone⟩ := hd
  exact ⟨before, rest ++ ys, by simp, hdone⟩

theorem did_concat (xs : List Step) (x y : Step) :
    did (xs ++ [y]) x ↔ did xs x ∨ (y = x ∧ ((after {} xs).step y).1 = .done) := by
  constructor
  · rintro ⟨before, rest, heq, hdone⟩
    rcases List.eq_nil_or_concat rest with rfl | ⟨init, z, rfl⟩
    · obtain ⟨rfl, hy⟩ := List.append_inj' heq rfl
      cases hy
      exact .inr ⟨rfl, hdone⟩
    · rw [List.concat_eq_append, ← List.cons_append, ← List.append_assoc] at heq
      exact .inl ⟨before, init, (List.append_inj' heq rfl).1, hdone⟩
  · rintro (hd | ⟨rfl, hdone⟩)
    · exact did_append hd [y]
    · exact ⟨xs, [], rfl, hdone⟩

structure Tells (stopped gone : Prop) (s : Session) : Prop where
  knows : s.channel.Knows stopped gone
  wake : .wake ∈ s.channel.messages → s.channel.isStopped
  heard : s.channel.isStopped → s.channel.Heard
  gone : s.fetching = .gone ↔ gone

namespace Tells

variable {stopped gone : Prop} {c : Channel} {f : Fetching} {hasStopper : Bool} {live : Int}

theorem take {x? : Option Message} (hi : s.Tells stopped gone) (ht : s.channel.Takes x? c)
    (hf : f = .gone ↔ s.fetching = .gone) : Tells stopped gone ⟨c, f, hasStopper, live⟩ where
  knows := by
    refine ⟨?_, fun hg => ht.isOpen.trans (hi.knows.isClosed hg), fun ho => ?_⟩
    · rw [ht.isStopped]
      exact hi.knows.isStopped
    · rw [ht.isOpen] at ho
      exact (hi.knows.closed ho).imp_right (Or.imp_left ht.hasPublisher)
  wake hm := by
    rw [ht.isStopped]
    exact hi.wake (ht.wake_mem hm)
  heard hs := by
    rw [ht.isStopped] at hs
    exact (hi.heard hs).change (.take ht)
  gone := hf.trans hi.gone

theorem stop (hi : s.Tells stopped gone) :
    Tells True gone { s with channel := Feed.stop s.channel } where
  knows := by
    refine ⟨iff_of_true s.channel.heard_stop.isStopped trivial, fun hg => ?_, fun _ => .inl trivial⟩
    exact s.channel.raise.isOpen_wake.trans (hi.knows.isClosed hg)
  wake _ := s.channel.heard_stop.isStopped
  heard _ := s.channel.heard_stop
  gone := hi.gone

theorem close (hi : s.Tells stopped gone) :
    Tells stopped True { s with channel := s.channel.close.1, fetching := .gone } where
  knows := ⟨hi.knows.isStopped, fun _ => rfl, fun _ => .inr (.inr trivial)⟩
  wake hm := by cases hm
  heard hs := (hi.heard hs).close
  gone := iff_of_true rfl trivial

theorem fetch {o : Outcome} {rs : List Record} (hi : s.Tells stopped gone)
    (hc : s.channel.Fetch c o rs) (hs : s.fetching ≠ .gone) (hf : f ≠ .gone) :
    Tells stopped gone ⟨c, f, hasStopper, live⟩ where
  knows := by
    have hgone : ¬ gone := fun hg => hs (hi.gone.mpr hg)
    refine ⟨?_, fun hg => (hgone hg).elim, fun ho => ?_⟩
    · rw [hc.isStopped]
      exact hi.knows.isStopped
    · rw [hc.hasPublisher]
      cases hc with
      | record | failure => exact hi.knows.closed ho
      | finish hw =>
        rcases hw with hstop | hwake | ⟨-, hnone⟩
        · exact .inl (hi.knows.isStopped.mp hstop)
        · exact .inl (hi.knows.isStopped.mp (hi.wake hwake))
        · cases hp : s.channel.hasPublisher with
          | false => exact .inr (.inl rfl)
          | true =>
            have hopen := hi.knows.closed (by simpa [hp] using hnone)
            simpa [hp] using hopen
  wake hm := by
    rw [hc.isStopped]
    cases hc with
    | record hmessages | failure hmessages =>
      refine hi.wake ?_
      rw [hmessages]
      exact List.mem_cons_of_mem _ hm
    | finish => cases hm
  heard hs := by
    rw [hc.isStopped] at hs
    exact (hi.heard hs).fetch hc
  gone := iff_of_false hf fun hg => hs (hi.gone.mpr hg)

theorem congr (hi : s.Tells stopped gone) {stopped' gone' : Prop} (hs : stopped ↔ stopped')
    (hg : gone ↔ gone') : s.Tells stopped' gone' := propext hs ▸ propext hg ▸ hi

theorem publishing (hi : s.Tells stopped gone) (p : Nat) (x : Publishing) (result : Result) :
    (s.publishing p x result).2.2.Tells stopped gone := by
  unfold Session.publishing
  split
  · exact hi.take (s.channel.takes_publish x) Iff.rfl
  · exact hi

theorem publish (hi : s.Tells stopped gone) (p : Nat) (id : UInt32) :
    (s.publish p id).2.2.Tells stopped gone := by
  unfold Session.publish
  split
  · split <;> exact hi.take (s.channel.takes_publish (.publish p id)) Iff.rfl
  · exact hi

theorem fetched (hi : s.Tells stopped gone) (hf : s.fetching = .ready) :
    s.fetch.2.2.Tells stopped gone := by
  have hne : s.fetching ≠ .gone := by simp [hf]
  unfold Session.fetch
  split
  next c o rs hc =>
    rw [(hand_eq _ _ _).2]
    exact hi.fetch (fetch_of_enter hc) hne hne
  next c rs hc =>
    obtain ⟨rfl, rfl⟩ := eq_of_enter hc
    split
    next d o more hd =>
      rw [(hand_eq _ _ _).2]
      exact hi.fetch (fetch_of_receive? hd) hne hne
    next => exact hi

theorem begun (hi : s.Tells stopped gone) (hf : s.fetching = .ready) :
    s.beginFetch.2.2.Tells stopped gone := by
  have hne : s.fetching ≠ .gone := by simp [hf]
  unfold Session.beginFetch
  cases hs : s.channel.isStopped with
  | true =>
    rw [enter_of_isStopped hs]
    exact hi.fetch (.finish (.inl hs)) hne (by simp)
  | false =>
    rw [enter_of_not_isStopped hs]
    exact hi.take s.channel.takes_refl (iff_of_false (by simp) hne)

end Tells

def Stops (x : Step) (result : Result) : Prop := x = .stop ∧ result = .done

def Drops (x : Step) (result : Result) : Prop :=
  (x = .dropSource ∨ x = .dropFetcher) ∧ result = .done

variable {stopped gone : Prop}

theorem tells_act (hi : s.Tells stopped gone) (x : Step) :
    Tells (stopped ∨ Stops x (s.act x).1) (gone ∨ Drops x (s.act x).1) (s.act x).2.2 := by
  have hquiet {s' : Session} {result : Result} (hi : s'.Tells stopped gone)
      (hs : ¬ Stops x result) (hd : ¬ Drops x result) :
      s'.Tells (stopped ∨ Stops x result) (gone ∨ Drops x result) :=
    hi.congr (or_iff_left hs).symm (or_iff_left hd).symm
  cases x with
  | publish p id => exact hquiet (hi.publish p id) (by simp [Stops]) (by simp [Drops])
  | fail p _ | isStopped p | clone p | finish p =>
    exact hquiet (hi.publishing p _ _) (by simp [Stops]) (by simp [Drops])
  | start =>
    refine hquiet ?_ (by simp [Stops]) (by simp [Drops])
    simp only [act]
    split
    next hf => exact hi.take s.channel.takes_refl (by simp [hf])
    next => exact hi
  | dropSource | dropFetcher =>
    simp only [act]
    split
    next hf =>
      exact hi.close.congr (by simp [Stops]) (iff_of_true trivial (.inr (by simp [Drops, close])))
    next => exact hquiet hi (by simp [Stops]) (by simp [Drops, absent])
  | dropStopper =>
    refine hquiet ?_ (by simp [Stops]) (by simp [Drops])
    simp only [act]
    split
    · exact hi.take s.channel.takes_refl Iff.rfl
    · exact hi
  | stop =>
    simp only [act]
    split
    · exact hi.stop.congr (iff_of_true trivial (.inr ⟨rfl, rfl⟩)) (by simp [Drops])
    · exact hquiet hi (by simp [Stops, absent]) (by simp [Drops])
  | fetch =>
    refine hquiet ?_ (by simp [Stops]) (by simp [Drops])
    simp only [act]
    split
    next hf => exact hi.fetched hf
    next => exact hi
  | beginFetch =>
    refine hquiet ?_ (by simp [Stops]) (by simp [Drops])
    simp only [act]
    split
    next hf => exact hi.begun hf
    next => exact hi
  | endFetch =>
    refine hquiet ?_ (by simp [Stops]) (by simp [Drops])
    simp only [act]
    split
    next o hf =>
      rw [(hand_eq _ _ _).2]
      exact hi.take s.channel.takes_refl (by simp [hf])
    next => exact hi
    next => exact hi
  | unknown => exact hquiet hi (by simp [Stops]) (by simp [Drops])

theorem tells_progress (hi : s.Tells stopped gone) : s.progress.2.Tells stopped gone := by
  unfold progress
  split
  next hf =>
    split
    next c o rs hc => exact hi.fetch (fetch_of_receive? hc) (by simp [hf]) (by simp)
    next => exact hi
  next => exact hi

theorem tells_step (hi : s.Tells stopped gone) (x : Step) :
    Tells (stopped ∨ Stops x (s.step x).1) (gone ∨ Drops x (s.step x).1) (s.step x).2.2 :=
  have hact := tells_progress (tells_act hi x)
  hact.take (takes_refl _) Iff.rfl

theorem tells_start : Tells False False {} where
  knows := ⟨by simp, fun h => h.elim, fun h => by cases h⟩
  wake hm := by cases hm
  heard hs := by cases hs
  gone := by simp

abbrev TellsOf (xs : List Step) : Prop :=
  Tells (did xs .stop) (did xs .dropSource ∨ did xs .dropFetcher) (after {} xs)

theorem tellsOf_concat {xs : List Step} (hi : TellsOf xs) (x : Step) : TellsOf (xs ++ [x]) := by
  rw [TellsOf, after_append]
  refine (tells_step hi x).congr ?_ ?_
  · rw [did_concat]
    rfl
  · rw [did_concat, did_concat, Drops, or_and_right, or_or_or_comm]

theorem tellsOf_append {xs : List Step} (hi : TellsOf xs) (ys : List Step) :
    TellsOf (xs ++ ys) := by
  induction ys generalizing xs with
  | nil => rwa [List.append_nil]
  | cons y rest ih =>
    rw [List.append_cons]
    exact ih (tellsOf_concat hi y)

theorem tellsOf (xs : List Step) : TellsOf xs := by
  have hnone (x : Step) : ¬ did [] x := by
    rintro ⟨before, rest, heq, -⟩
    simp at heq
  have hstart : TellsOf [] := tells_start.congr (iff_of_false id (hnone _)) (by simp [hnone])
  exact tellsOf_append hstart xs

structure Answers (stopped gone : Prop) (s : Session) : Prop where
  handsBack : ∀ p, s.channel.isAlive p → ∀ id,
    (s.step (.publish p id)).1 = .rejected ⟨id, s.channel.made⟩ ↔ stopped ∨ gone
  takesIn : ∀ p, s.channel.isAlive p → ∀ id,
    (s.step (.publish p id)).1 = .accepted ↔ ¬(stopped ∨ gone)
  flag : ∀ p, s.channel.isAlive p → ((s.step (.isStopped p)).1 = .stopped true ↔ stopped)

theorem Tells.answers {stopped gone : Prop} (hi : s.Tells stopped gone) :
    s.Answers stopped gone := by
  have hresult {p : Nat} (hp : s.channel.isAlive p) (id : UInt32) :
      (s.step (.publish p id)).1 =
        if s.channel.accepts then .accepted else .rejected ⟨id, s.channel.made⟩ := by
    simp only [step, act, Session.publish, hp, if_true]
    split <;> rfl
  have haccepts {p : Nat} (hp : s.channel.isAlive p) :
      s.channel.accepts = false ↔ stopped ∨ gone := by
    rw [← hi.knows.turnsAway_iff hp]
    cases hs : s.channel.isStopped <;> simp [accepts, hs]
  refine ⟨fun p hp id => ?_, fun p hp id => ?_, fun p hp => ?_⟩
  · rw [hresult hp, ← haccepts hp]
    cases s.channel.accepts <;> simp
  · rw [hresult hp, ← haccepts hp]
    cases s.channel.accepts <;> simp
  · rw [← hi.knows.isStopped]
    simp [step, act, Session.publishing, hp]

theorem answers_cons (s : Session) (x : Step) (xs : List Step) : s.answers (x :: xs) =
    ((s.step x).1, (s.step x).2.1, (s.step x).2.2.live) :: (s.step x).2.2.answers xs := rfl

theorem answers_append (s : Session) (xs ys : List Step) :
    s.answers (xs ++ ys) = s.answers xs ++ (s.after xs).answers ys := by
  induction xs generalizing s with
  | nil => rfl
  | cons x rest ih => exact congrArg (_ :: ·) (ih (s.step x).2.2)

theorem mem_released_of_fetched {r : Record} (hx : (s.step x).1 = .fetched (.record r)) :
    r ∈ (s.step x).2.1 := by
  have hreleased : (s.step x).2.1 = (s.act x).2.1 ++ (s.act x).2.2.progress.1 := rfl
  have hmove := s.move_act x
  rw [hreleased]
  replace hx : (s.act x).1 = .fetched (.record r) := hx
  refine List.mem_append_left _ ?_
  generalize s.act x = reply at hmove hx
  cases hmove with
  | aside hr => exact (hr _ hx).elim
  | start | close | wait | heed => cases hx
  | fetch | handOut =>
    rw [(hand_eq _ _ _).1] at hx
    cases hx
    simp [hand]

theorem mem_released_of_mem_answers {xs : List Step} {r : Record}
    {a : Result × List Record × Int} (ha : a ∈ s.answers xs) (hr : a.1 = .fetched (.record r)) :
    r ∈ s.releasedIn xs := by
  refine List.mem_flatMap.mpr ⟨a, ha, ?_⟩
  induction xs generalizing s with
  | nil => cases ha
  | cons x rest ih =>
    rcases List.mem_cons.mp ha with rfl | ha
    · exact mem_released_of_fetched hr
    · exact ih ha

theorem mem_released_of_rejected {p : Nat} {id : UInt32} {r : Record}
    (hx : (s.step (.publish p id)).1 = .rejected r) : r ∈ (s.step (.publish p id)).2.1 := by
  replace hx : (s.publish p id).1 = .rejected r := hx
  refine List.mem_append_left _ ?_
  change r ∈ (s.publish p id).2.1
  unfold publish at hx ⊢
  split at hx
  next hp =>
    split at hx
    next => cases hx
    next ha =>
      cases hx
      simp [hp, ha]
  next => cases hx

theorem releasedIn_append (s : Session) (xs ys : List Step) :
    s.releasedIn (xs ++ ys) = s.releasedIn xs ++ (s.after xs).releasedIn ys := by
  rw [releasedIn, answers_append, List.flatMap_append]
  rfl

/-- No fetch returns a record that was handed back: it was let go of, and that happens once. -/
theorem not_fetched_of_rejected {xs : List Step} {p : Nat} {id : UInt32} {r : Record}
    (hx : ((after {} xs).step (.publish p id)).1 = .rejected r) (ys : List Step) :
    ∀ a ∈ answers {} (xs ++ .publish p id :: ys), a.1 ≠ .fetched (.record r) := by
  intro a ha hfetched
  have hcopies := (conserves_after {} (xs ++ .publish p id :: ys)).copies_le_one r.serial
  have hreleased : releasedIn {} (xs ++ .publish p id :: ys) = releasedIn {} xs ++
      (((after {} xs).step (.publish p id)).2.1 ++
        ((after {} xs).step (.publish p id)).2.2.releasedIn ys) := releasedIn_append {} xs _
  have hback := Record.one_le_copies (mem_released_of_rejected hx)
  have htwice : 1 ≤ copies r.serial (releasedIn {} xs) +
      copies r.serial (((after {} xs).step (.publish p id)).2.2.releasedIn ys) := by
    rw [answers_append, answers_cons] at ha
    rcases List.mem_append.mp ha with ha | ha
    · have := Record.one_le_copies (mem_released_of_mem_answers ha hfetched)
      omega
    · rcases List.mem_cons.mp ha with heq | ha
      · have hsame : a.1 = ((after {} xs).step (.publish p id)).1 := congrArg Prod.fst heq
        cases hx.symm.trans (hsame.symm.trans hfetched)
      · have := Record.one_le_copies (mem_released_of_mem_answers ha hfetched)
        omega
  rw [hreleased] at hcopies
  simp [records, Channel.records, held, Fetching.held] at hcopies
  omega

end Session

end Channel

theorem Depot.out_of_supply? {σ : Type} [Feed σ] [Stock σ] {d d' : Depot σ} {x : Supply}
    {r : Record} (hs : d.supply? x = some d') (hx : ∀ p, x ≠ .send p r) (hr : r ∈ d.hands) :
    r ∈ d'.hands ∨ .released r ∈ d'.noted := by
  cases x with
  | ask x =>
    cases hs
    exact .inl hr
  | make id =>
    cases hs
    exact .inl (List.mem_append_left _ hr)
  | send p r' =>
    have hne : r ≠ r' := fun heq => hx p (by rw [heq])
    simp only [supply?, Option.ite_none_right_eq_some] at hs
    obtain ⟨-, hs⟩ := hs
    left
    split at hs <;> cases hs
    · exact (List.mem_erase_of_ne hne).mpr hr
    · exact hr
  | discard r' =>
    simp only [supply?, Option.ite_none_right_eq_some, Option.some.injEq] at hs
    obtain ⟨-, rfl⟩ := hs
    by_cases heq : r = r'
    · subst heq
      exact .inr (by simp)
    · exact .inl ((List.mem_erase_of_ne heq).mpr hr)

namespace Race

open Channel

variable {m m' : Race} {label : Label} {labels : List Label}

theorem gone_step (hs : Step m label m') :
    (m'.fetcher = .gone ↔ m.fetcher = .gone ∨ label = .retire) ∧
      ((m.fetcher = .gone → m.channel.isOpen = false) →
        m'.fetcher = .gone → m'.channel.isOpen = false) := by
  cases hs with
  | wait hf | heed hf | receive hf => simp [hf, told]
  | retire hf => exact ⟨iff_of_true rfl (.inr rfl), fun _ _ => rfl⟩
  | raise => exact ⟨by simp [fed], id⟩
  | wake hw => exact ⟨by simp [fed], fun hi hg => m.channel.isOpen_wake.trans (hi hg)⟩
  | supply hd => exact ⟨by simp, fun hi hg => (Depot.takes_supply? hd).isOpen.trans (hi hg)⟩

theorem gone_run (hr : m.run? labels = some m') :
    (m'.fetcher = .gone ↔ m.fetcher = .gone ∨ .retire ∈ labels) ∧
      ((m.fetcher = .gone → m.channel.isOpen = false) →
        m'.fetcher = .gone → m'.channel.isOpen = false) := by
  induction labels generalizing m with
  | nil =>
    cases hr
    exact ⟨by simp, id⟩
  | cons label rest ih =>
    obtain ⟨next, hs, hr⟩ := Option.bind_eq_some_iff.mp hr
    obtain ⟨hgone, hclosed⟩ := gone_step (step_of_step? hs)
    obtain ⟨hgone', hclosed'⟩ := ih hr
    refine ⟨?_, fun hi => hclosed' (hclosed hi)⟩
    rw [hgone', hgone, List.mem_cons, or_assoc, eq_comm (a := label)]

theorem knows_of_run (hr : run? {} labels = some m) :
    m.channel.Knows (.raise ∈ labels) (.retire ∈ labels) := by
  have hi := sound_start.run hr
  obtain ⟨-, hall⟩ := count_of_run hr
  obtain ⟨hgone, hclosed⟩ := gone_run hr
  replace hgone : m.fetcher = .gone ↔ .retire ∈ labels := by simpa using hgone
  have hstopped : m.channel.isStopped ↔ .raise ∈ labels := by
    rw [hi.stopped, hall, ← List.count_pos_iff]
    simp
  refine ⟨hstopped, fun hg => ?_, fun ho => ?_⟩
  · refine hclosed (fun hf => ?_) (hgone.mpr hg)
    cases hf
  · rw [← hstopped, ← hgone]
    cases hf : m.fetcher with
    | idle => exact (hi.closed hf ho).imp_right .inl
    | waiting =>
      refine .inr (.inl ((hi.opened hf).resolve_left ?_))
      simp [ho]
    | gone => exact .inr (.inr rfl)

def IsOut (r : Record) (m : Race) : Prop := r ∈ m.depot.hands ∨ .released r ∈ m.depot.noted

theorem isOut_step {r : Record} (hi : m.IsOut r) (hl : ∀ p, label ≠ .supply (.send p r))
    (hs : Step m label m') : m'.IsOut r := by
  cases hs with
  | wait | heed | receive | retire | raise | wake => exact hi.imp_right (List.mem_append_left _)
  | @supply x d hd =>
    rcases hi with hr | hn
    · exact Depot.out_of_supply? hd (fun p heq => hl p (by rw [heq])) hr
    · obtain ⟨es, hnoted, -⟩ := Depot.notes_supply? hd
      right
      change .released r ∈ d.noted
      rw [hnoted]
      exact List.mem_append_left _ hn

theorem isOut_run {r : Record} (hi : m.IsOut r) (hl : ∀ p, .supply (.send p r) ∉ labels)
    (hr : m.run? labels = some m') : m'.IsOut r := by
  rw [run?_eq_foldlM] at hr
  refine foldlM_keeps (P := IsOut r) (fun a b x hx ha hs => ?_) hi hr
  exact isOut_step ha (fun p heq => hl p (heq ▸ hx)) (step_of_step? hs)

theorem not_answered_of_isOut {r : Record} (hr : run? {} labels = some m) (hi : m.IsOut r) :
    .record r ∉ m.answers := by
  intro ha
  have hall : Conserved 0 m.channel.made [] m.records := conserved_run hr
  have hcopies := hall.copies_le_one r.serial
  have hanswered : 1 ≤ copies r.serial (m.answers.filterMap Outcome.record?) :=
    Record.one_le_copies (List.mem_filterMap.mpr ⟨_, ha, rfl⟩)
  have hout := Record.one_le_copies_out hi
  rw [records, settled, Record.copies_append, Record.copies_append, Record.copies_append]
    at hcopies
  omega

end Race

namespace Supplied

open Channel

variable {h : Handler} {m m' : Supplied Channel} {label : Label} {labels : List Label}
  {failed : Bool} {r : Record}

/-- A stop was requested, from outside or by the handler. -/
def IsStopped (m : Supplied Channel) : Prop := .stopRequested ∈ m.bridge.link.trace

theorem Stoppable.knows (hi : m.Stoppable) :
    m.bridge.link.feed.Knows m.IsStopped m.bridge.IsRetired := by
  have hstopped : m.bridge.link.feed.isStopped ↔ m.IsStopped := by
    rw [hi.requested.isStopped, Link.requests, List.count_pos_iff, IsStopped]
  refine ⟨hstopped, fun hg => (hi.orderly.source hg).isOpen, fun ho => ?_⟩
  rw [← hstopped]
  exact hi.requested.closed ho

theorem trace_grows_of_run (hr : m.run? h labels = some m') :
    m.bridge.link.trace <+: m'.bridge.link.trace := by
  rw [run?_eq_foldlM] at hr
  exact foldlM_keeps
    (P := fun m' : Supplied Channel => m.bridge.link.trace <+: m'.bridge.link.trace)
    (fun _ _ _ _ ha hs => ha.trans (trace_grows_of_step hs)) List.prefix_rfl hr

def IsOut (r : Record) (m : Supplied Channel) : Prop :=
  r ∈ m.hands ∨ .released r ∈ m.bridge.link.trace

theorem isOut_step? (hi : m.IsOut r) (hl : ∀ p, label ≠ .supply (.send p r))
    (hs : m.step? h label = some m') : m'.IsOut r := by
  rcases hi with hr | hn
  · cases label with
    | bridge label =>
      obtain ⟨b, -, rfl⟩ := Option.map_eq_some_iff.mp hs
      exact .inl hr
    | supply x =>
      obtain ⟨d, hd, -, rfl⟩ := step?_supply hs
      refine (Depot.out_of_supply? hd (fun p heq => hl p (by rw [heq])) hr).imp_right fun hn => ?_
      rw [Link.trace_fed]
      exact List.mem_append_right _ hn
  · exact .inr ((trace_grows_of_step hs).subset hn)

theorem not_mem_records_of_isOut (hi : m.IsOut r) (hone : copies r.serial m.records ≤ 1) :
    r ∉ m.bridge.link.feed.records := by
  intro hr
  have hin := Record.one_le_copies hr
  have hout := Record.one_le_copies_out hi
  have hall : copies r.serial m.bridge.link.feed.records +
      copies r.serial m.hands + copies r.serial (Event.releases m.bridge.link.trace) ≤
        copies r.serial m.records := by
    have hheld : Stock.held m.bridge.link.feed = m.bridge.link.feed.records := rfl
    simp only [records, Bridge.records, Link.records, Record.copies_append, hheld]
    omega
  omega

def fetches (m : Supplied Channel) : List Outcome := (Tally.ofTrace m.bridge.link.trace).outcomes

theorem fetches_step? (hs : m.step? h label = some m') :
    m'.fetches = m.fetches ∨ ∃ o, m'.fetches = m.fetches ++ [o] ∧
      ∀ r, o = .record r → r ∈ m.bridge.link.feed.records := by
  by_cases hl : label = .bridge .produce
  · subst hl
    obtain ⟨b, hb, rfl⟩ := Option.map_eq_some_iff.mp hs
    cases (Bridge.step?_eq_some_iff.mp hb).2 with
    | @produce p p' l' hp hside =>
      cases hside.reads with
      | idle _ _ hy | retire _ _ hy => exact .inl hy
      | @fetch o rs hf _ _ hy =>
        refine .inr ⟨o, hy, fun r ho => ?_⟩
        subst ho
        generalize l'.feed = d at hf
        cases hf with
        | record hm => simp [Channel.records, hm, Message.record?]
  · exact .inl (change_step? hl hs).2.1.outcomes

/-- As long as nobody sends it no fetch returns a record that is out. -/
theorem not_fetched_of_isOut (hi : m.IsOut r)
    (hone : ∀ xs a, m.run? h xs = some a → copies r.serial a.records ≤ 1)
    (hl : ∀ p, .supply (.send p r) ∉ labels) (hr : m.run? h labels = some m') :
    ∃ os, m'.fetches = m.fetches ++ os ∧ .record r ∉ os := by
  induction labels generalizing m with
  | nil =>
    cases hr
    exact ⟨[], (List.append_nil _).symm, by simp⟩
  | cons label rest ih =>
    obtain ⟨next, hs, hr⟩ := Option.bind_eq_some_iff.mp hr
    have hnext := isOut_step? hi (fun p heq => hl p (heq ▸ List.mem_cons_self)) hs
    obtain ⟨os, hos, hnot⟩ := ih hnext
      (fun xs a ha => hone (label :: xs) a (Option.bind_eq_some_iff.mpr ⟨next, hs, ha⟩))
      (fun p hm => hl p (List.mem_cons_of_mem _ hm)) hr
    rcases fetches_step? hs with heq | ⟨o, ho, hin⟩
    · exact ⟨os, by rw [hos, heq], hnot⟩
    · refine ⟨o :: os, by rw [hos, ho, List.append_assoc]; rfl, fun hm => ?_⟩
      rcases List.mem_cons.mp hm with heq | hm
      · exact not_mem_records_of_isOut hi (hone [] m rfl) (hin r heq.symm)
      · exact hnot hm

/-- How a bridge over a channel, or what a failed creation has left, answers those who publish. -/
structure IsServed (h : Handler) (failed : Bool) (m : Supplied Channel) : Prop where
  serves : m.bridge.link.feed.Serves m.IsStopped (m.IsGone failed)
  /-- So it is if much happens between the halves of a publication, -/
  late : ∀ more m', m.run? h more = some m' →
    m.bridge.link.feed.ServesLate m'.bridge.link.feed (m.IsStopped ∨ m.IsGone failed)
      (m'.IsStopped ∨ m'.IsGone failed)
  /-- the flag stays set, -/
  stays : ∀ more m', m.run? h more = some m' → m.IsStopped → m'.IsStopped
  /-- and what is handed back to a caller no fetch returns, unless he sends it again. -/
  silent : ∀ r, m.IsOut r → ∀ more m', (∀ p, .supply (.send p r) ∉ more) →
    m.run? h more = some m' → ∃ os, m'.fetches = m.fetches ++ os ∧ .record r ∉ os

theorem Started.isServed {m₀ : Supplied Channel} (hm : Started failed m₀) (hw : h.IsWhole)
    (hr : m₀.run? h labels = some m) : m.IsServed h failed := by
  have hknows {xs : List Label} {a : Supplied Channel} (ha : m₀.run? h xs = some a) :
      a.bridge.link.feed.Knows a.IsStopped (a.IsGone failed) := by
    have hknows := (hm.stoppable.run? hw ha).knows
    rwa [propext (hm.isRetired_iff ha)] at hknows
  have hlater {more : List Label} {m' : Supplied Channel} (hr' : m.run? h more = some m') :
      m₀.run? h (labels ++ more) = some m' := by
    rw [run?_append, hr]
    exact hr'
  have hstays {more : List Label} {m' : Supplied Channel} (hr' : m.run? h more = some m')
      (hs : m.IsStopped) : m'.IsStopped := (trace_grows_of_run hr').subset hs
  refine ⟨(hknows hr).serves, fun more m' hr' => ?_, fun more m' hr' => hstays hr', ?_⟩
  · refine (hknows hr).servesLate (hknows (hlater hr')) (hstays hr') (Or.imp_right ?_)
    rintro ⟨v, panic?, hdropped⟩
    exact ⟨v, panic?, (trace_grows_of_run hr').subset hdropped⟩
  · exact fun r hi more m' hl hr' => not_fetched_of_isOut hi
      (fun xs a ha => hm.copies_le_one (hlater ha) r.serial) hl hr'

end Supplied

/-- How a channel whose stops, fetches and publications mix answers those who publish. -/
structure Race.IsServed (labels : List Race.Label) (m : Race) : Prop where
  serves : m.channel.Serves (.raise ∈ labels) (.retire ∈ labels)
  late : ∀ more m', m.run? more = some m' →
    m.channel.ServesLate m'.channel (.raise ∈ labels ∨ .retire ∈ labels)
      (.raise ∈ labels ++ more ∨ .retire ∈ labels ++ more)
  stays : ∀ more m', m.run? more = some m' → m.channel.isStopped → m'.channel.isStopped
  silent : ∀ r, m.IsOut r → ∀ more m', (∀ p, .supply (.send p r) ∉ more) →
    m.run? more = some m' → .record r ∉ m'.answers

theorem Race.isServed {labels : List Race.Label} {m : Race} (hr : run? {} labels = some m) :
    m.IsServed labels := by
  have hlater {more : List Race.Label} {m' : Race} (hr' : m.run? more = some m') :
      run? {} (labels ++ more) = some m' := by
    rw [run?_eq_foldlM] at hr hr' ⊢
    rw [List.foldlM_append, hr]
    exact hr'
  have hknows := knows_of_run hr
  refine ⟨hknows.serves, fun more m' hr' => ?_, fun more m' hr' hs => ?_,
    fun r hi more m' hl hr' => ?_⟩
  · exact hknows.servesLate (knows_of_run (hlater hr')) (List.mem_append_left _)
      (List.mem_append_left _)
  · exact (knows_of_run (hlater hr')).isStopped.mpr
      (List.mem_append_left _ (hknows.isStopped.mp hs))
  · exact not_answered_of_isOut (hlater hr') (isOut_run hi hl hr')

namespace Channel

namespace Session

/-- How a channel that is driven by hand has answered its publishers after some steps. -/
structure IsServed (xs : List Step) : Prop where
  serves : (after {} xs).channel.Serves (did xs .stop) (did xs .dropSource ∨ did xs .dropFetcher)
  answers : (after {} xs).Answers (did xs .stop) (did xs .dropSource ∨ did xs .dropFetcher)
  stays : ∀ ys, (after {} xs).channel.isStopped → (after {} (xs ++ ys)).channel.isStopped
  silent : ∀ p id r ys, ((after {} xs).step (.publish p id)).1 = .rejected r →
    ∀ a ∈ Session.answers {} (xs ++ .publish p id :: ys), a.1 ≠ .fetched (.record r)

theorem isServed (xs : List Step) : IsServed xs where
  serves := (tellsOf xs).knows.serves
  answers := (tellsOf xs).answers
  stays ys hs := (tellsOf (xs ++ ys)).knows.isStopped.mpr
    (did_append ((tellsOf xs).knows.isStopped.mp hs) ys)
  silent _ _ _ ys hx := not_fetched_of_rejected hx ys

end Session

/-- **A record is taken in or handed back, and there is nothing in between.** Whether a channel is
driven by hand, or its stops, fetches and publications come in halves that mix, or a bridge runs
over it: a living publisher gets his record back, and nothing changes, exactly after a stop was
requested, the source was dropped or the fetcher was; before that the record goes to the end of the
channel. -/
theorem isServed_of_run :
    (∀ xs : List Session.Step, Session.IsServed xs) ∧
    (∀ (labels : List Race.Label) (m : Race), Race.run? {} labels = some m → m.IsServed labels) ∧
    ∀ (failed : Bool) (m₀ : Supplied Channel), Supplied.Started failed m₀ →
      ∀ h : Handler, h.IsWhole → ∀ (labels : List Supplied.Label) (m : Supplied Channel),
        m₀.run? h labels = some m → m.IsServed h failed :=
  ⟨Session.isServed, fun _ _ => Race.isServed, fun _ _ hm _ hw _ _ hr => hm.isServed hw hr⟩

def oneMadeDepot : Depot Channel := { feed := { made := 1 }, hands := [⟨7, 0⟩] }

def stoppingHandler : Handler := fun _ _ => [.stop, .publish (.publish 0 2)]

/-- A record is published and handled, and after the fetcher has gone the caller sends his own. -/
def oneMadeLabels : List Supplied.Label :=
  [.bridge .consume, .bridge .produce, .supply (.ask (.publish 0 1))] ++
    List.replicate 3 (.bridge .produce) ++ List.replicate 6 (.bridge .consume) ++
    List.replicate 3 (.bridge .produce) ++ [.supply (.send 0 ⟨7, 0⟩), .supply (.ask (.publish 0 3))]

/-- A record is rejected after the stop while one waits in a fetch; a stop sets the flag while the
publisher is between the halves of a publication; a bridge is stopped by its handler. -/
theorem isServed_oneMade :
    (Session.did [.start, .publish 0 5, .stop] .stop ∧
      ((Session.after {} [.start, .publish 0 5, .stop]).step (.publish 0 6)).1 =
        .rejected ⟨6, 1⟩ ∧ Session.IsServed [.start, .publish 0 5, .stop]) ∧
    (∃ m, Race.run? {} [.check, .supply (.make 7), .raise] = some m ∧
      m.depot.hands = [⟨7, 0⟩] ∧ m.channel.isStopped ∧ m.channel.isOpen ∧
      m.IsServed [.check, .supply (.make 7), .raise]) ∧
    ∃ m, (Supplied.begin { feed := {} } oneMadeDepot {} 0).run? stoppingHandler oneMadeLabels =
        some m ∧ m.hands = [⟨7, 0⟩] ∧ m.IsStopped ∧ m.IsGone false ∧
      m.IsServed stoppingHandler false := by
  obtain ⟨hsession, hrace, hsupplied⟩ := isServed_of_run
  have hd : Depot.supplyAll? { feed := ({} : Channel) } [.make 7] = some oneMadeDepot := by decide
  have hstart := Supplied.Started.created hd { feed := {} } {} 0
  have hcreated : (({ feed := oneMadeDepot.feed } : Source Channel).create {} 0
      oneMadeDepot.noted).failure?.isSome = false := by decide +kernel
  rw [hcreated] at hstart
  have hhalf : (Race.run? {} [.check, .supply (.make 7), .raise]).map
      (fun m => (m.depot.hands, m.channel.isStopped, m.channel.isOpen)) =
        some ([⟨7, 0⟩], true, true) := by decide
  have hrun : ((Supplied.begin { feed := {} } oneMadeDepot {} 0).run? stoppingHandler
      oneMadeLabels).map (fun m => (m.hands, m.bridge.link.trace.contains .stopRequested,
        m.bridge.link.trace.contains (.fetcherDropped .running none))) =
          some ([⟨7, 0⟩], true, true) := by decide +kernel
  obtain ⟨m, hr, hm⟩ := Option.map_eq_some_iff.mp hhalf
  obtain ⟨m', hr', hm'⟩ := Option.map_eq_some_iff.mp hrun
  simp only [Prod.mk.injEq] at hm
  simp only [Prod.mk.injEq, List.contains_iff_mem] at hm'
  refine ⟨⟨⟨[.start, .publish 0 5], [], rfl, by decide⟩, by decide, hsession _⟩,
    ⟨m, hr, hm.1, hm.2.1, hm.2.2, hrace _ m hr⟩, m', hr', hm'.1, hm'.2.1,
    .inr ⟨_, _, hm'.2.2⟩, hsupplied false _ hstart _ ?_ _ m' hr'⟩
  intro n r
  simp [stoppingHandler]

end Channel

end Handoff
