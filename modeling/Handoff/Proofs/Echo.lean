import Handoff.Proofs.HandingBack

/-! Stops that come after a stop: they set a flag that is set and send wake-ups that nobody
receives, because the first one closes the channel. -/
namespace Handoff

/-- The messages without the wake-ups that come behind the first. -/
def Message.onceWoken : List Message → List Message
  | [] => []
  | .wake :: rest => .wake :: rest.filter (· ≠ .wake)
  | .record r :: rest => .record r :: onceWoken rest
  | .failure report :: rest => .failure report :: onceWoken rest

namespace Message

theorem onceWoken_append {ms more : List Message} (hm : .wake ∉ more) :
    onceWoken (ms ++ more) = onceWoken ms ++ more := by
  induction ms with
  | nil =>
    induction more with
    | nil => rfl
    | cons m rest ih =>
      rw [List.mem_cons, not_or] at hm
      have hrest := ih hm.2
      rw [List.nil_append] at hrest
      cases m with
      | wake => exact (hm.1 rfl).elim
      | record | failure => exact congrArg (_ :: ·) hrest
  | cons m rest ih =>
    cases m with
    | wake =>
      have hkeep : more.filter (· ≠ .wake) = more :=
        List.filter_eq_self.mpr fun m hmem => by simpa using fun heq : m = .wake => hm (heq ▸ hmem)
      simp only [List.cons_append, onceWoken, List.filter_append, hkeep]
    | record | failure => exact congrArg (_ :: ·) ih

theorem onceWoken_append_wake {ms : List Message} (hm : .wake ∈ ms) :
    onceWoken (ms ++ [.wake]) = onceWoken ms := by
  induction ms with
  | nil => cases hm
  | cons m rest ih =>
    cases m with
    | wake => simp [onceWoken]
    | record | failure => exact congrArg (_ :: ·) (ih (by simpa using hm))

theorem filterMap_filter_wake (ms : List Message) :
    (ms.filter (· ≠ .wake)).filterMap record? = ms.filterMap record? := by
  rw [List.filterMap_filter]
  congr 1
  funext m
  cases m <;> rfl

theorem filterMap_onceWoken (ms : List Message) :
    (onceWoken ms).filterMap record? = ms.filterMap record? := by
  induction ms with
  | nil => rfl
  | cons m rest ih =>
    cases m with
    | wake => exact filterMap_filter_wake rest
    | record | failure => simp [onceWoken, List.filterMap_cons, record?, ih]

end Message

namespace Channel

/-- The channel as far as anybody can tell. -/
def plain (c : Channel) : Channel := { c with messages := Message.onceWoken c.messages }

variable {c d : Channel}

@[simp] theorem records_plain (c : Channel) : c.plain.records = c.records :=
  Message.filterMap_onceWoken c.messages

@[simp] theorem close_plain (c : Channel) : c.plain.close = (c.close.1.plain, c.close.2) := by
  simp [close, plain, Message.onceWoken, records, Message.filterMap_onceWoken]

theorem enter_plain (c : Channel) :
    c.plain.enter = (c.enter.1.plain, c.enter.2.1, c.enter.2.2) := by
  cases hs : c.isStopped with
  | true =>
    have hs' : c.plain.isStopped = true := hs
    rw [enter_of_isStopped hs, enter_of_isStopped hs', close_plain]
  | false =>
    have hs' : c.plain.isStopped = false := hs
    rw [enter_of_not_isStopped hs, enter_of_not_isStopped hs']

theorem receive?_plain (c : Channel) :
    c.plain.receive? = c.receive?.map fun (d, o, rs) => (d.plain, o, rs) := by
  cases hm : c.messages with
  | nil =>
    have hm' : c.plain.messages = [] := by simp [plain, hm, Message.onceWoken]
    have hnone : (c.plain.hasPublisher && c.plain.isOpen) = (c.hasPublisher && c.isOpen) := rfl
    simp only [receive?, hm, hm', hnone, finish, close_plain]
    split <;> rfl
  | cons m rest =>
    cases m with
    | record r | failure report => simp [receive?, hm, plain, Message.onceWoken]
    | wake =>
      simp only [receive?, hm, plain, Message.onceWoken, finish, close, records, Option.map_some,
        Message.filterMap_filter_wake]

theorem send_plain {m : Message} (hm : m ≠ .wake) (c : Channel) :
    c.plain.send m = (c.send m).plain := by
  unfold send
  have ho : c.plain.isOpen = c.isOpen := rfl
  rw [ho]
  split
  · have hone : .wake ∉ [m] := by simpa using hm.symm
    simp [plain, Message.onceWoken_append hone]
  · rfl

theorem publish_plain (x : Publishing) (c : Channel) :
    c.plain.publish x = ((c.publish x).1.plain, (c.publish x).2) := by
  have hp (p : Nat) : c.plain.isAlive p = c.isAlive p := rfl
  have ha : c.plain.accepts = c.accepts := rfl
  cases x with
  | publish p id =>
    simp only [publish, hp, ha]
    split
    · split
      · exact congrArg (·, _) (send_plain (m := .record ⟨id, c.made⟩) (by simp)
          { c with made := c.made + 1 })
      · rfl
    · rfl
  | fail p report =>
    simp only [publish, hp]
    split
    · exact congrArg (·, _) (send_plain (m := .failure report) (by simp) c)
    · rfl
  | isStopped p | clone p =>
    simp only [publish, hp]
    split <;> rfl
  | finish p =>
    have hl : c.plain.publishers.length = c.publishers.length := rfl
    simp only [publish, hl]
    split <;> rfl
  | unknown => rfl

theorem send?_plain (p : Nat) (r : Record) (c : Channel) :
    send? p r c.plain = (send? p r c).map plain := by
  have ha : (c.plain.isAlive p && c.plain.isOpen) = (c.isAlive p && c.isOpen) := rfl
  simp only [send?, ha, send_plain (m := .record r) (by simp)]
  split <;> rfl

theorem raise_of_isStopped (hs : c.isStopped) : c.raise = c := by
  simp [raise, ← hs]

theorem Heard.raise_eq (hc : c.Heard) : c.raise = c := raise_of_isStopped hc.isStopped

/-- A wake-up more cannot be told from none. -/
theorem Heard.plain_wake (hc : c.Heard) : c.wake.plain = c.plain := by
  rcases hc.reaches with ho | hp | hw
  · unfold wake send
    simp [ho]
  · unfold wake
    simp [hp]
  · unfold wake send
    split
    · split
      · simp [plain, Message.onceWoken_append_wake hw]
      · rfl
    · rfl

theorem Heard.receive?_ne_none (hc : c.Heard) : c.receive? ≠ none := by
  intro hnone
  obtain ⟨hm, hp, ho⟩ := eq_nil_of_receive? hnone
  rcases hc.reaches with h | h | h
  · rw [ho] at h
    cases h
  · rw [hp] at h
    cases h
  · rw [hm] at h
    cases h

namespace Session

def plain (s : Session) : Session := { s with channel := s.channel.plain }

def Reply.plain (r : Reply) : Reply := (r.1, r.2.1, r.2.2.plain)

variable {s : Session} {x : Step} {gone : Prop}

theorem hand_plain (o : Outcome) (rs : List Record) (s : Session) :
    hand o rs s.plain = Reply.plain (hand o rs s) := by
  cases o <;> rfl

theorem publishing_plain (s : Session) (p : Nat) (x : Publishing) (result : Result) :
    s.plain.publishing p x result = Reply.plain (s.publishing p x result) := by
  have hp : s.plain.channel.isAlive p = s.channel.isAlive p := rfl
  have hpub : s.plain.channel.publish x = _ := s.channel.publish_plain x
  simp only [publishing, hp, hpub]
  split <;> rfl

theorem fetch_plain (s : Session) : s.plain.fetch = Reply.plain s.fetch := by
  have henter : s.plain.channel.enter = _ := s.channel.enter_plain
  unfold fetch
  rw [henter]
  rcases s.channel.enter with ⟨c, answer?, rs⟩
  cases answer? with
  | some o => exact hand_plain o rs { s with channel := c }
  | none =>
    simp only [receive?_plain]
    rcases c.receive? with _ | ⟨d, o, more⟩
    · rfl
    · exact hand_plain o (rs ++ more) { s with channel := d }

/-- Nobody but a stop could tell the difference. -/
theorem act_plain (s : Session) (hx : x ≠ .stop) : s.plain.act x = Reply.plain (s.act x) := by
  have hf : s.plain.fetching = s.fetching := rfl
  have hclose : s.plain.close .done = Reply.plain (s.close .done) := by
    have h : s.plain.channel.close = _ := s.channel.close_plain
    simp only [close, h]
    rfl
  cases x with
  | publish p id =>
    have hp : s.plain.channel.isAlive p = s.channel.isAlive p := rfl
    have ha : s.plain.channel.accepts = s.channel.accepts := rfl
    have hpub : s.plain.channel.publish (.publish p id) = _ := s.channel.publish_plain _
    simp only [act, publish, hp, ha, hpub]
    split
    · split <;> rfl
    · rfl
  | fail p report => exact s.publishing_plain p _ _
  | isStopped p => exact s.publishing_plain p _ _
  | clone p => exact s.publishing_plain p _ _
  | finish p => exact s.publishing_plain p _ _
  | start =>
    simp only [act, hf]
    split <;> rfl
  | dropSource | dropFetcher =>
    simp only [act, hf]
    split
    · exact hclose
    · rfl
  | dropStopper =>
    have hstopper : s.plain.hasStopper = s.hasStopper := rfl
    simp only [act, hstopper]
    split <;> rfl
  | stop => exact (hx rfl).elim
  | fetch =>
    simp only [act, hf]
    split
    · exact s.fetch_plain
    · rfl
  | beginFetch =>
    have henter : s.plain.channel.enter = _ := s.channel.enter_plain
    simp only [act, hf, beginFetch, henter]
    split <;> rfl
  | endFetch =>
    simp only [act, hf]
    split
    · exact hand_plain _ _ { s with fetching := .ready }
    · rfl
    · rfl
  | unknown => rfl

theorem progress_plain (s : Session) :
    s.plain.progress = (s.progress.1, s.progress.2.plain) := by
  have hf : s.plain.fetching = s.fetching := rfl
  have hreceive : s.plain.channel.receive? = _ := s.channel.receive?_plain
  simp only [progress, hf, hreceive]
  split
  · rcases s.channel.receive? with _ | ⟨d, o, rs⟩ <;> rfl
  · rfl

theorem step_plain (s : Session) (hx : x ≠ .stop) : s.plain.step x = Reply.plain (s.step x) := by
  unfold step
  rw [act_plain s hx]
  simp only [Reply.plain, progress_plain]
  rfl

theorem Tells.heard_of_stopped (hi : s.Tells True gone) : s.channel.Heard :=
  hi.heard (hi.knows.isStopped.mpr trivial)

/-- A stop more lets go of nothing, and nothing can be told from it. -/
theorem step_stop_plain (hi : s.Tells True gone) (hs : s.IsSettled) :
    (s.step .stop).2.1 = [] ∧ (s.step .stop).2.2.plain = s.plain := by
  have hheard := hi.heard_of_stopped
  have hready : s.fetching ≠ .begun none := fun hf => hheard.receive?_ne_none (hs hf)
  have hidle (c : Channel) : progress { s with channel := c } = ([], { s with channel := c }) :=
    progress_eq fun hf => (hready hf).elim
  have hlive : s.live - ((0 : Nat) : Int) = s.live := Int.sub_zero _
  simp only [step, act]
  split
  · have hplain : (Feed.stop s.channel).plain = s.channel.plain := by
      change s.channel.raise.wake.plain = _
      rw [hheard.raise_eq, hheard.plain_wake]
    simp only [hidle, List.append_nil, List.length_nil, hlive, true_and]
    exact congrArg (fun c => { s with channel := c }) hplain
  · simp only [absent, hidle s.channel, List.append_nil, List.length_nil, hlive, true_and]

def ownAnswers (s : Session) (xs : List Step) : List (Result × List Record × Int) :=
  ((xs.zip (s.answers xs)).filter (·.1 ≠ .stop)).map (·.2)

/-- Whatever stops come after a stop: the other steps are answered as if there were none. -/
theorem ownAnswers_eq (hi : s.Tells True gone) (hs : s.IsSettled) (xs : List Step) :
    s.ownAnswers xs = s.plain.answers (xs.filter (· ≠ .stop)) ∧
      (s.after xs).plain = s.plain.after (xs.filter (· ≠ .stop)) := by
  induction xs generalizing s gone with
  | nil => exact ⟨rfl, rfl⟩
  | cons x rest ih =>
    have hnext : Tells True (gone ∨ Drops x (s.step x).1) (s.step x).2.2 :=
      (tells_step hi x).congr (iff_of_true (.inl trivial) trivial) Iff.rfl
    obtain ⟨hanswers, hafter⟩ := ih hnext (s.isSettled_step x)
    rw [ownAnswers] at hanswers
    rw [ownAnswers, answers_cons, List.zip_cons_cons, after]
    by_cases hx : x = .stop
    · subst hx
      obtain ⟨-, hplain⟩ := step_stop_plain hi hs
      rw [List.filter_cons_of_neg (by simp), List.filter_cons_of_neg (by simp), hanswers, hafter,
        hplain]
      exact ⟨rfl, rfl⟩
    · have hstep := s.step_plain hx
      rw [List.filter_cons_of_pos (by simpa using hx), List.filter_cons_of_pos (by simpa using hx),
        List.map_cons, hanswers, hafter, answers_cons, after, hstep]
      exact ⟨rfl, rfl⟩

end Session

end Channel

/-- The second list is the first with further stop requests in it, each in two halves that may stand
apart; `n` of them have set the flag before. -/
inductive Inserts {ι : Type} (raise wake : ι) : Nat → List ι → List ι → Prop where
  | nil {n : Nat} : Inserts raise wake n [] []
  | own {n : Nat} {xs ys : List ι} (x : ι) (hi : Inserts raise wake n xs ys) :
    Inserts raise wake n (x :: xs) (x :: ys)
  | raise {n : Nat} {xs ys : List ι} (hi : Inserts raise wake (n + 1) xs ys) :
    Inserts raise wake n xs (raise :: ys)
  | wake {n : Nat} {xs ys : List ι} (hi : Inserts raise wake n xs ys) :
    Inserts raise wake (n + 1) xs (wake :: ys)

/-- Two machines of which one has `n` more requests halfway go through their runs together, if each
step keeps them together and the halves of a request are possible as long as the machine lives. -/
theorem Inserts.run {α ι : Type} {step? : α → ι → Option α} {raise wake : ι} {live : α → Prop}
    {R : Nat → α → α → Prop}
    (hown : ∀ n a b x a', R n a b → step? a x = some a' → ∃ b', step? b x = some b' ∧ R n a' b')
    (hraise : ∀ n a b, live a → R n a b → ∃ b', step? b raise = some b' ∧ R (n + 1) a b')
    (hwake : ∀ n a b, live a → R (n + 1) a b → ∃ b', step? b wake = some b' ∧ R n a b')
    (hlive : ∀ a x a', step? a x = some a' → live a)
    {n : Nat} {xs ys : List ι} (hi : Inserts raise wake n xs ys) {a a' b : α} (hr : R n a b)
    (hx : xs.foldlM step? a = some a') (ha : live a') :
    ∃ b' k, ys.foldlM step? b = some b' ∧ R k a' b' := by
  have halive {zs : List ι} {a : α} (hz : zs.foldlM step? a = some a') : live a := by
    cases zs with
    | nil =>
      cases hz
      exact ha
    | cons x rest =>
      obtain ⟨next, hs, -⟩ := Option.bind_eq_some_iff.mp hz
      exact hlive a x next hs
  induction hi generalizing a b with
  | nil =>
    cases hx
    exact ⟨b, _, rfl, hr⟩
  | own x _ ih =>
    obtain ⟨next, hs, hx⟩ := Option.bind_eq_some_iff.mp hx
    obtain ⟨next', hs', hr'⟩ := hown _ _ _ _ _ hr hs
    obtain ⟨b', k, hb, hk⟩ := ih hr' hx
    exact ⟨b', k, Option.bind_eq_some_iff.mpr ⟨next', hs', hb⟩, hk⟩
  | raise _ ih =>
    obtain ⟨next, hs, hr'⟩ := hraise _ _ _ (halive hx) hr
    obtain ⟨b', k, hb, hk⟩ := ih hr' hx
    exact ⟨b', k, Option.bind_eq_some_iff.mpr ⟨next, hs, hb⟩, hk⟩
  | wake _ ih =>
    obtain ⟨next, hs, hr'⟩ := hwake _ _ _ (halive hx) hr
    obtain ⟨b', k, hb, hk⟩ := ih hr' hx
    exact ⟨b', k, Option.bind_eq_some_iff.mpr ⟨next, hs, hb⟩, hk⟩

/-- What two machines do alike in each step they do alike in a run. -/
theorem foldlM_follows {α ι : Type} {step? : α → ι → Option α} {R : α → α → Prop}
    (hown : ∀ a b x a', R a b → step? a x = some a' → ∃ b', step? b x = some b' ∧ R a' b')
    {xs : List ι} {a a' b : α} (hr : R a b) (hx : xs.foldlM step? a = some a') :
    ∃ b', xs.foldlM step? b = some b' ∧ R a' b' := by
  induction xs generalizing a b with
  | nil =>
    cases hx
    exact ⟨b, rfl, hr⟩
  | cons x rest ih =>
    obtain ⟨next, hs, hx⟩ := Option.bind_eq_some_iff.mp hx
    obtain ⟨next', hs', hr'⟩ := hown _ _ _ _ hr hs
    obtain ⟨b', hb, hb'⟩ := ih hr' hx
    exact ⟨b', Option.bind_eq_some_iff.mpr ⟨next', hs', hb⟩, hb'⟩

def Depot.plain (d : Depot Channel) : Depot Channel := { d with feed := d.feed.plain }

theorem Depot.supply?_plain (d : Depot Channel) (x : Supply) :
    d.plain.supply? x = (d.supply? x).map plain := by
  cases x with
  | ask x =>
    have hpub : Feed.publish x d.feed.plain = _ := d.feed.publish_plain x
    simp only [supply?, plain, hpub]
    rfl
  | make id => rfl
  | send p r =>
    have hhands : d.plain.hands = d.hands := rfl
    have hsend : Stock.send? p r d.plain.feed = (Stock.send? p r d.feed).map Channel.plain :=
      d.feed.send?_plain p r
    simp only [supply?, hhands, hsend]
    by_cases hr : r ∈ d.hands
    · simp only [if_pos hr]
      cases Stock.send? p r d.feed <;> rfl
    · simp only [if_neg hr]
      rfl
  | discard r =>
    have hhands : d.plain.hands = d.hands := rfl
    simp only [supply?, hhands]
    by_cases hr : r ∈ d.hands
    · simp only [if_pos hr]
      rfl
    · simp only [if_neg hr]
      rfl

namespace Race

open Channel

variable {m m' : Race} {label : Label}

/-- The race as far as anybody can tell who does not count the stops. -/
def plain (m : Race) : Race := { m with depot := m.depot.plain, halfway := 0, returned := 0 }

theorem step?_plain (m : Race) (hr : label ≠ .raise) (hw : label ≠ .wake) :
    m.plain.step? label = (m.step? label).map plain := by
  have hf : m.plain.fetcher = m.fetcher := rfl
  cases label with
  | check =>
    have henter : m.plain.channel.enter = _ := m.channel.enter_plain
    simp only [step?, hf, henter]
    split
    · rcases m.channel.enter with ⟨c, _ | o, rs⟩ <;> rfl
    · rfl
  | receive =>
    have hreceive : m.plain.channel.receive? = _ := m.channel.receive?_plain
    simp only [step?, hf, hreceive]
    split
    · rcases m.channel.receive? with _ | ⟨c, o, rs⟩ <;> rfl
    · rfl
  | retire =>
    have hclose : m.plain.channel.close = _ := m.channel.close_plain
    simp only [step?, hf, hclose]
    split <;> rfl
  | raise => exact (hr rfl).elim
  | wake => exact (hw rfl).elim
  | supply x =>
    have hsupply : m.plain.depot.supply? x = _ := m.depot.supply?_plain x
    simp only [step?, hsupply, Option.map_map]
    rfl

theorem heard_step (hs : Step m label m') (hm : m.channel.Heard) : m'.channel.Heard := by
  cases hs with
  | wait => exact hm
  | heed | retire => exact hm.close
  | receive hf hc => exact hm.fetch hc
  | raise => exact hm.change .raise
  | wake => exact hm.change .wake
  | supply hd => exact hm.change (.take (Depot.takes_supply? hd))

theorem halfway_step (hs : Step m label m') (hr : label ≠ .raise) (hw : label ≠ .wake) :
    m'.halfway = m.halfway := by
  cases hs with
  | raise => exact (hr rfl).elim
  | wake => exact (hw rfl).elim
  | wait | heed | receive | retire | supply => rfl

/-- Two races that differ in stops alone, of which the second has `n` more on their way. -/
structure Apart (n : Nat) (a b : Race) : Prop where
  plain : b.plain = a.plain
  halfway : b.halfway = a.halfway + n
  heard : a.channel.Heard
  heard' : b.channel.Heard

theorem plain_raise (hm : m.channel.Heard) {m' : Race} (hs : m.step? .raise = some m') :
    m'.plain = m.plain ∧ m'.halfway = m.halfway + 1 ∧ m'.channel.Heard := by
  refine ⟨?_, ?_, heard_step (step_of_step? hs) hm⟩ <;> cases hs
  · have hraise : m.depot.feed.raise = m.depot.feed := hm.raise_eq
    simp [Race.plain, fed, hraise, Depot.plain, Event.releasing, channel]
  · rfl

theorem plain_wake (hm : m.channel.Heard) {m' : Race} (hs : m.step? .wake = some m') :
    m'.plain = m.plain ∧ m.halfway = m'.halfway + 1 ∧ m'.channel.Heard := by
  have hheard := heard_step (step_of_step? hs) hm
  cases step_of_step? hs with
  | wake hpos =>
    refine ⟨?_, by simp; omega, hheard⟩
    have hplain : m.depot.feed.wake.plain = m.depot.feed.plain := hm.plain_wake
    simp [Race.plain, fed, hplain, Depot.plain, Event.releasing, channel]

namespace Apart

variable {n : Nat} {a b a' : Race}

theorem raise (hi : Apart n a b) : ∃ b', b.step? .raise = some b' ∧ Apart (n + 1) a b' := by
  obtain ⟨hplain, hhalfway, hheard⟩ := plain_raise hi.heard' rfl
  exact ⟨_, rfl, hplain.trans hi.plain, by rw [hhalfway, hi.halfway, Nat.add_assoc], hi.heard,
    hheard⟩

theorem wake (hi : Apart (n + 1) a b) : ∃ b', b.step? .wake = some b' ∧ Apart n a b' := by
  have hpos : 0 < b.halfway := by
    rw [hi.halfway]
    omega
  obtain ⟨b', hs⟩ : ∃ b', b.step? .wake = some b' := ⟨_, if_pos hpos⟩
  obtain ⟨hplain, hhalfway, hheard⟩ := plain_wake hi.heard' hs
  refine ⟨b', hs, hplain.trans hi.plain, ?_, hi.heard, hheard⟩
  have := hi.halfway
  omega

theorem own (hi : Apart n a b) (hs : a.step? label = some a') :
    ∃ b', b.step? label = some b' ∧ Apart n a' b' := by
  by_cases hr : label = .raise
  · subst hr
    obtain ⟨hplain, hhalfway, hheard⟩ := plain_raise hi.heard hs
    obtain ⟨b', hs', hi'⟩ := hi.raise
    refine ⟨b', hs', hi'.plain.trans hplain.symm, ?_, hheard, hi'.heard'⟩
    rw [hi'.halfway, hhalfway]
    omega
  · by_cases hw : label = .wake
    · subst hw
      obtain ⟨hplain, hhalfway, hheard⟩ := plain_wake hi.heard hs
      have hmore : Apart (n + a'.halfway + 1) { a with halfway := 0 } b :=
        ⟨hi.plain, by have := hi.halfway; simp; omega, hi.heard, hi.heard'⟩
      obtain ⟨b', hs', hi'⟩ := hmore.wake
      refine ⟨b', hs', hi'.plain.trans hplain.symm, ?_, hheard, hi'.heard'⟩
      rw [hi'.halfway]
      simp
      omega
    · have hstep := step?_plain a hr hw
      rw [hs, ← hi.plain, step?_plain b hr hw, Option.map_some, Option.map_eq_some_iff] at hstep
      obtain ⟨b', hs', hplain⟩ := hstep
      refine ⟨b', hs', hplain, ?_, heard_step (step_of_step? hs) hi.heard,
        heard_step (step_of_step? hs') hi.heard'⟩
      rw [halfway_step (step_of_step? hs') hr hw, halfway_step (step_of_step? hs) hr hw, hi.halfway]

end Apart

theorem heard_of_returned {labels : List Label} (hr : run? {} labels = some m)
    (hl : .wake ∈ labels) : m.channel.Heard := by
  have hcount := (count_of_run hr).1
  have hwakes := List.count_pos_iff.mpr hl
  rw [run?_eq_foldlM] at hr
  have hall : m.Sound ∧ (0 < m.returned → m.channel.Heard) := by
    refine foldlM_keeps (P := fun m : Race => m.Sound ∧ (0 < m.returned → m.channel.Heard))
      (fun a b x _ ha hs => ?_) ⟨sound_start, fun hpos => by cases hpos⟩ hr
    have hstep := step_of_step? hs
    refine ⟨ha.1.step hstep, fun hpos => ?_⟩
    cases hstep with
    | wake hw =>
      exact heard_wake (ha.1.stopped.mpr (Nat.add_pos_left hw _))
    | wait | heed | receive | retire | raise | supply =>
      exact heard_step (step_of_step? hs) (ha.2 hpos)
  refine hall.2 ?_
  rw [hcount]
  exact Nat.add_pos_right _ hwakes

/-- Two races whose fetches have returned the same, whose publishers were answered the same and have
the same records, and which have released their records in the same order. -/
structure Alike (a b : Race) : Prop where
  answers : b.answers = a.answers
  noted : b.depot.noted = a.depot.noted
  hands : b.depot.hands = a.depot.hands
  records : b.channel.records = a.channel.records
  fetcher : b.fetcher = a.fetcher

theorem alike_of_plain {a b : Race} (hp : b.plain = a.plain) : a.Alike b where
  answers := congrArg (·.answers) hp
  noted := congrArg (·.depot.noted) hp
  hands := congrArg (·.depot.hands) hp
  records := by
    have hchannel : b.channel.plain = a.channel.plain := congrArg (·.depot.feed) hp
    rw [← records_plain, hchannel, records_plain]
  fetcher := congrArg (·.fetcher) hp

/-- Wherever further stops go in between, with both their halves or one, a run goes on as it did. -/
def Unaffected (m : Race) : Prop :=
  ∀ xs ys a, m.run? xs = some a → Inserts .raise .wake 0 xs ys →
    ∃ b, m.run? ys = some b ∧ a.Alike b

theorem unaffected (hm : m.channel.Heard) : m.Unaffected := by
  intro xs ys a hr hi
  rw [run?_eq_foldlM] at hr
  have hrefl : Apart 0 m m := ⟨rfl, rfl, hm, hm⟩
  have hraise (n : Nat) (a b : Race) (_ : True) (hi : Apart n a b) :
      ∃ b', b.step? .raise = some b' ∧ Apart (n + 1) a b' := hi.raise
  have hwake (n : Nat) (a b : Race) (_ : True) (hi : Apart (n + 1) a b) :
      ∃ b', b.step? .wake = some b' ∧ Apart n a b' := hi.wake
  obtain ⟨b, k, hb, hk⟩ := hi.run (fun _ _ _ _ _ hi hs => hi.own hs) hraise hwake
    (fun _ _ _ _ => trivial) hrefl hr trivial
  exact ⟨b, (m.run?_eq_foldlM ys).trans hb, alike_of_plain hk.plain⟩

end Race

namespace Channel.Session

/-- How a channel that is driven by hand goes on after some steps, whatever stops still come. -/
structure Unaffected (xs : List Step) : Prop where
  answers : ∀ ys zs : List Step, ys.filter (· ≠ .stop) = zs.filter (· ≠ .stop) →
    (after {} xs).ownAnswers ys = (after {} xs).ownAnswers zs
  silent : ∀ ys, ((after {} (xs ++ ys)).step .stop).2.1 = []

theorem unaffected {xs : List Step} (hx : did xs .stop) : Unaffected xs := by
  have hstart : IsSettled {} := fun hf => by cases hf
  have hsettled (ys : List Step) := isSettled_after hstart ys
  refine ⟨fun ys zs heq => ?_, fun ys => ?_⟩
  · have hi := (tellsOf xs).congr (iff_true_intro hx) Iff.rfl
    rw [(ownAnswers_eq hi (hsettled xs) ys).1, (ownAnswers_eq hi (hsettled xs) zs).1, heq]
  · have hi := (tellsOf (xs ++ ys)).congr (iff_true_intro (did_append hx ys)) Iff.rfl
    exact (step_stop_plain hi (hsettled (xs ++ ys))).1

end Channel.Session

end Handoff
