import Handoff.Proofs.Conveyance
import Handoff.Proofs.Schedules

/-! A bridge over a channel delivers what the channel accepted, up to the first failure or to a
stop, and tells of it. -/
namespace Handoff

open Record (copies)

theorem Event.count_released_le (r : Record) (es : List Event) :
    es.count (.released r) ≤ copies r.serial (Event.releases es) := by
  induction es with
  | nil => exact Nat.le_refl 0
  | cons e rest ih =>
    rw [List.count_cons, Event.releases_cons, Record.copies_append]
    cases e with
    | released r' =>
      by_cases hr : r' = r
      · simp [hr]
        omega
      · simp [hr]
        omega
    | _ => simpa using ih

theorem Outcome.filterMap_record?_of_exit? {o : Outcome} {exit : Exit} (he : o.exit? = some exit) :
    [o].filterMap Outcome.record? = [] := by
  cases o with
  | record r => cases he
  | endMarker | failed report | panicked x => rfl

theorem Tally.fetched_of_outcomes {y : Tally} {rs : List Record} {os : List Outcome}
    (ho : y.outcomes = rs.map .record ++ os) (hos : os.filterMap Outcome.record? = []) :
    y.fetched = rs := by
  rw [fetched, ho, List.filterMap_append, hos, List.filterMap_map, List.append_nil]
  exact List.filterMap_some

theorem Link.heard_of_outcomes {σ : Type} {l : Link σ} {rs : List Record} {os : List Outcome}
    (ho : (Tally.ofTrace l.trace).outcomes = rs.map .record ++ os) :
    l.heard = rs.map .record ++ os.filterMap Outcome.message? := by
  have hrecords : rs.filterMap (Outcome.message? ∘ Outcome.record) = rs.map .record :=
    congrFun List.filterMap_eq_map rs
  rw [heard, ho, List.filterMap_append, List.filterMap_map, hrecords]

theorem Producer.Told.outcomes {p : Producer} {y : Tally} (hi : p.Told y) :
    ∃ os : List Outcome, y.outcomes = y.fetched.map .record ++ os := by
  have hfirst {rs : List Record} {os : List Outcome} (ho : y.outcomes = rs.map .record ++ os)
      (hos : os.filterMap Outcome.record? = []) :
      ∃ os : List Outcome, y.outcomes = y.fetched.map .record ++ os :=
    ⟨os, by rw [Tally.fetched_of_outcomes ho hos]; exact ho⟩
  cases hp : p.place with
  | starting | fetching | waiting | pushing _ | calling _ | aborted _ =>
    simp only [Told, hp] at hi
    obtain ⟨rs, ho⟩ := hi
    exact hfirst (ho.trans (List.append_nil _).symm) rfl
  | retiring _ =>
    simp only [Told, hp] at hi
    obtain ⟨rs, o, ho, he⟩ := hi
    exact hfirst ho (Outcome.filterMap_record?_of_exit? he)
  | marking _ | releasing _ | ended _ =>
    simp only [Told, hp] at hi
    obtain ⟨rs, o, left, panic?, ho, he, -⟩ := hi
    exact hfirst ho (Outcome.filterMap_record?_of_exit? he)

namespace Bridge

/-- What becomes of the messages that a channel has accepted, in order, while a bridge runs over
it. -/
structure Delivers (accepted : List Message) (b : Bridge Channel) : Prop where
  /-- The records that were handled are all of a part of the messages from the first one on. -/
  passed : (Tally.ofTrace b.link.trace).passed.map .record <+: accepted
  /-- The bridge ends well or with the first failure, and counts what was handled. The count is told
  in 64 bits, hence exactly as long as it stays below 2 ^ 64. -/
  completion : ∀ v, b.completion? = some v →
    (Tally.ofTrace b.link.trace).returned = (Tally.ofTrace b.link.trace).passed ∧
      (v = .finished ⟨(Tally.ofTrace b.link.trace).passed.length, b.generation⟩ ∨
        ∃ report rest,
          v = .failed (.sourceFailed (Tally.ofTrace b.link.trace).passed.length report) ∧
          accepted = (Tally.ofTrace b.link.trace).passed.map .record ++ .failure report :: rest)
  /-- Without a stop it ends well once there is nobody to publish any more and all was handled. -/
  finished : .stopRequested ∉ b.link.trace → ∀ s, b.completion? = some (.finished s) →
    b.link.feed.hasPublisher = false ∧
      accepted = (Tally.ofTrace b.link.trace).passed.map .record
  /-- Records that were not handled are released, once each. -/
  released : b.exit?.isSome → ∀ r, .record r ∈ accepted →
    r ∉ (Tally.ofTrace b.link.trace).passed → b.link.trace.count (.released r) = 1

end Bridge

namespace Supplied

variable {h : Handler} {m m' : Supplied Channel} {accepted : List Message} {g : UInt32}

namespace Running

theorem heard (hi : Running g accepted m) :
    (Tally.ofTrace m.bridge.link.trace).fetched.map .record <+: m.bridge.link.heard := by
  obtain ⟨p, -, -, ht, -⟩ := hi.holds
  obtain ⟨os, hos⟩ := ht.outcomes
  rw [Link.heard_of_outcomes hos]
  exact List.prefix_append _ _

theorem fetched (hi : Running g accepted m) :
    (Tally.ofTrace m.bridge.link.trace).fetched.map .record <+: accepted :=
  hi.heard.trans hi.conveys.heard_isPrefix

theorem passed (hi : Running g accepted m) :
    (Tally.ofTrace m.bridge.link.trace).passed.map .record <+: accepted := by
  obtain ⟨p, -, hs, -⟩ := hi.holds
  have hp := hs.aligned.lockstep.passed_prefix
  exact (hp.map Message.record).trans hi.fetched

theorem told (hi : Running g accepted m) {v : Completion} (hv : m.bridge.completion? = some v) :
    ∃ exit, v = .ofExit (Tally.ofTrace m.bridge.link.trace).passed.length g exit ∧
      (Tally.ofTrace m.bridge.link.trace).fetched = (Tally.ofTrace m.bridge.link.trace).passed ∧
      (Tally.ofTrace m.bridge.link.trace).returned = (Tally.ofTrace m.bridge.link.trace).passed ∧
      ∃ o : Outcome, o.exit? = some exit ∧ (Tally.ofTrace m.bridge.link.trace).outcomes =
        (Tally.ofTrace m.bridge.link.trace).passed.map .record ++ [o] := by
  obtain ⟨p, hp, hs, ht, -⟩ := hi.holds
  rcases hs.informed.told v hv with rfl | ⟨⟨⟨exit, hplace, rfl⟩, -⟩, -⟩
  · exact (hs.attended.value_ne hv).elim
  · have haligned := hs.aligned
    simp only [Producer.Aligned, hplace] at haligned
    obtain ⟨-, hy, hn, -⟩ := haligned
    simp only [Producer.Told, hplace] at ht
    obtain ⟨rs, o, left, panic?, ho, he, hr, rfl⟩ := ht
    have hpanic : panic? = none := hi.retirements panic? (by simp [hr])
    have hleft : left.orPanic panic? = left := by
      rw [hpanic]
      cases left <;> rfl
    have hrs : (Tally.ofTrace m.bridge.link.trace).fetched = rs :=
      Tally.fetched_of_outcomes ho (Outcome.filterMap_record?_of_exit? he)
    refine ⟨left, ?_, hy.fetched, hy.passed.symm, o, he, ?_⟩
    · rw [hleft, hy.passed, hn]
    · rw [← hy.fetched, hrs]
      exact ho

theorem completion (hi : Running g accepted m) {v : Completion}
    (hv : m.bridge.completion? = some v) :
    v = .finished ⟨(Tally.ofTrace m.bridge.link.trace).passed.length, g⟩ ∨
      ∃ report rest,
        v = .failed (.sourceFailed (Tally.ofTrace m.bridge.link.trace).passed.length report) ∧
        accepted = (Tally.ofTrace m.bridge.link.trace).passed.map .record ++
          .failure report :: rest := by
  obtain ⟨exit, rfl, -, -, o, he, ho⟩ := hi.told hv
  cases o with
  | record r => cases he
  | endMarker =>
    cases he
    exact .inl rfl
  | panicked x => exact (hi.outcomes x (by simp [ho])).elim
  | failed report =>
    cases he
    obtain ⟨rest, hrest⟩ := hi.conveys.heard_isPrefix
    refine .inr ⟨report, rest, rfl, ?_⟩
    rw [← hrest, Link.heard_of_outcomes ho, List.append_assoc]
    rfl

theorem finished (hi : Running g accepted m) (hq : .stopRequested ∉ m.bridge.link.trace)
    {s : Summary} (hv : m.bridge.completion? = some (.finished s)) :
    m.bridge.link.feed.hasPublisher = false ∧
      accepted = (Tally.ofTrace m.bridge.link.trace).passed.map .record := by
  obtain ⟨exit, hv, -, -, o, he, ho⟩ := hi.told hv
  cases o with
  | record r => cases he
  | failed report | panicked x =>
    cases he
    cases hv
  | endMarker =>
    obtain ⟨hp, ha⟩ := (hi.undisturbed hq).ended (by simp [ho])
    refine ⟨hp, ?_⟩
    rw [ha, Link.heard_of_outcomes ho]
    exact List.append_nil _

theorem released (hi : Running g accepted m) (he : m.bridge.exit?.isSome) {r : Record}
    (hr : .record r ∈ accepted) (hp : r ∉ (Tally.ofTrace m.bridge.link.trace).passed) :
    .released r ∈ m.bridge.link.trace := by
  obtain ⟨p, hproducer, hs, -⟩ := hi.holds
  rw [Bridge.exit?_of_producer hproducer, Option.isSome_map] at he
  obtain ⟨exit, hplace⟩ : ∃ exit, p.place = .ended exit := by
    cases hplace : p.place <;> simp [Producer.exit?, hplace] at he
    exact ⟨_, rfl⟩
  have hclosed : m.bridge.link.feed.isOpen = false := by
    have hspent : m.bridge.link.feed.IsSpent := hi.orderly.source fun q hq => by
      cases hproducer.symm.trans hq
      rw [hplace]
      rfl
    exact hspent.isOpen
  have hfetched : (Tally.ofTrace m.bridge.link.trace).fetched =
      (Tally.ofTrace m.bridge.link.trace).passed := by
    have haligned := hs.aligned
    simp only [Producer.Aligned, hplace] at haligned
    exact haligned.2.1.fetched
  cases hi.conveys with
  | opened ho =>
    rw [hclosed] at ho
    cases ho
  | closed _ _ ha hrest =>
    rw [ha, List.mem_append] at hr
    rcases hr with hr | hr
    · obtain ⟨o, ho, hm⟩ := List.mem_filterMap.mp hr
      have hmem : r ∈ (Tally.ofTrace m.bridge.link.trace).fetched := by
        refine List.mem_filterMap.mpr ⟨o, ho, ?_⟩
        cases o <;> cases hm
        rfl
      exact (hp (hfetched ▸ hmem)).elim
    · exact hrest r hr

theorem delivers (hi : Running g accepted m)
    (hm : ∀ s, copies s (Event.releases m.bridge.link.trace) ≤ 1) :
    m.bridge.Delivers accepted where
  passed := hi.passed
  completion v hv := by
    obtain ⟨-, -, -, hreturned, -⟩ := hi.told hv
    rw [hi.generation]
    exact ⟨hreturned, hi.completion hv⟩
  finished hq _ hv := hi.finished hq hv
  released he r hr hp := by
    have hpos := List.count_pos_iff.mpr (hi.released he hr hp)
    have hle := Event.count_released_le r m.bridge.link.trace
    have hone := hm r.serial
    omega

end Running

/-- Once a failure was accepted or all publishers are gone no fetch is in vain. -/
theorem Running.not_awaitsSource (hi : Running g accepted m)
    (ha : (∃ report, .failure report ∈ accepted) ∨ m.bridge.link.feed.hasPublisher = false) :
    ¬ m.bridge.AwaitsSource := by
  rintro ⟨p, hp, hplace, hf⟩
  obtain ⟨hempty, hpub, hopen⟩ := Channel.eq_nil_of_receive? hf
  rcases ha with ⟨report, hmem⟩ | hnone
  · obtain ⟨q, hq, -, ht, -⟩ := hi.holds
    cases hp.symm.trans hq
    simp only [Producer.Told, hplace] at ht
    obtain ⟨rs, hrs⟩ := ht
    have ho : (Tally.ofTrace m.bridge.link.trace).outcomes = rs.map .record ++ [] :=
      hrs.trans (List.append_nil _).symm
    cases hi.conveys with
    | opened _ ha =>
      rw [ha, Channel.waiting, hempty, Link.heard_of_outcomes ho] at hmem
      simp at hmem
    | closed ho =>
      rw [hopen] at ho
      cases ho
  · rw [hnone] at hpub
    cases hpub

theorem Running.length_fetched_le (hi : Running g accepted m) {first : List Message}
    (hp : first <+: accepted)
    (ha : (∃ report, .failure report ∈ first) ∨ accepted = first) :
    (Tally.ofTrace m.bridge.link.trace).fetched.length ≤ first.length := by
  have hfetched := hi.fetched
  rcases ha with ⟨report, hmem⟩ | rfl
  · rcases List.prefix_or_prefix_of_prefix hfetched hp with hle | hle
    · simpa using hle.length_le
    · have hr := hle.subset hmem
      simp at hr
  · simpa using hfetched.length_le

section Schedules

variable {σ : Type} [Feed σ] [Stock σ]

/-- The states while labels are tried one after another; what is not possible in its turn is passed
over. -/
def states (h : Handler) (m : Supplied σ) (labels : Nat → Label) : Nat → Supplied σ
  | 0 => m
  | k + 1 =>
    let s := m.states h labels k
    (s.step? h (labels k)).getD s

def played (h : Handler) (m : Supplied σ) (labels : Nat → Label) : Nat → List Label
  | 0 => []
  | k + 1 => m.played h labels k ++
      if ((m.states h labels k).step? h (labels k)).isSome then [labels k] else []

def Label.isOfSides : Label → Bool
  | bridge label => label.isOfSides
  | supply _ => false

/-- One of the sides steps in its turn. -/
def Moves (h : Handler) (m : Supplied σ) (labels : Nat → Label) (k : Nat) : Prop :=
  (labels k).isOfSides ∧ ((m.states h labels k).step? h (labels k)).isSome

instance (h : Handler) (m : Supplied σ) (labels : Nat → Label) (k : Nat) :
    Decidable (m.Moves h labels k) := inferInstanceAs (Decidable (_ ∧ _))

/-- The sides do not stand still for good while one of them can step. -/
def Fair (h : Handler) (m : Supplied σ) (labels : Nat → Label) : Prop :=
  ∀ k, ((m.states h labels k).bridge.advance? h).isSome → ∃ j, k ≤ j ∧ m.Moves h labels j

/-- At some moment the task is gone, and the caller who waits has been told. -/
def ComesToEnd (h : Handler) (m : Supplied σ) (labels : Nat → Label) : Prop :=
  ∃ k, (m.states h labels k).bridge.consumer.place = .gone ∧
    ((m.states h labels k).bridge.consumer.signal.isHeld →
      (m.states h labels k).bridge.completion?.isSome)

variable {m : Supplied σ} {labels : Nat → Label}

theorem states_succ (k : Nat) : m.states h labels (k + 1) =
    ((m.states h labels k).step? h (labels k)).getD (m.states h labels k) := rfl

theorem run?_played (k : Nat) :
    m.run? h (m.played h labels k) = some (m.states h labels k) := by
  induction k with
  | zero => rfl
  | succ k ih =>
    rw [played, run?_append, ih, Option.bind_some, states_succ]
    cases hs : (m.states h labels k).step? h (labels k) with
    | none => rfl
    | some next => simp [run?, hs]

theorem mem_played {label : Label} {k : Nat} (hl : label ∈ m.played h labels k) :
    ∃ j, label = labels j := by
  induction k with
  | zero => cases hl
  | succ k ih =>
    rw [played, List.mem_append] at hl
    rcases hl with hl | hl
    · exact ih hl
    · split at hl
      · exact ⟨k, List.mem_singleton.mp hl⟩
      · cases hl

end Schedules

theorem hasPublisher_step? {label : Label} (hs : m.step? h label = some m')
    (hp : m.bridge.link.feed.hasPublisher = false) :
    m.accepted? label = none ∧ m'.bridge.link.feed.hasPublisher = false := by
  by_cases hl : label = .bridge .produce
  · subst hl
    refine ⟨rfl, ?_⟩
    obtain ⟨b, hb, rfl⟩ := Option.map_eq_some_iff.mp hs
    cases (Bridge.step?_eq_some_iff.mp hb).2 with
    | produce _ hside => exact hside.reads.hasPublisher.trans hp
  · exact (change_step? hl hs).1.of_hasPublisher hp

theorem acceptedIn_append (xs ys : List Label) :
    m.acceptedIn h (xs ++ ys) =
      m.acceptedIn h xs ++ (m.run? h xs).elim [] fun next => next.acceptedIn h ys := by
  induction xs generalizing m with
  | nil => rfl
  | cons label rest ih =>
    rw [List.cons_append, acceptedIn, acceptedIn, run?]
    cases hs : m.step? h label with
    | none => simp
    | some next => simp [ih]

section Schedules

variable {labels : Nat → Label}

theorem acceptedIn_played_succ (k : Nat) :
    m.acceptedIn h (m.played h labels (k + 1)) = m.acceptedIn h (m.played h labels k) ++
      (((m.states h labels k).step? h (labels k)).bind fun _ =>
        (m.states h labels k).accepted? (labels k)).toList := by
  rw [played, acceptedIn_append, run?_played]
  cases hs : (m.states h labels k).step? h (labels k) with
  | none => simp [acceptedIn]
  | some next => simp [acceptedIn, hs]

theorem acceptedIn_played_isPrefix (k d : Nat) :
    m.acceptedIn h (m.played h labels k) <+: m.acceptedIn h (m.played h labels (k + d)) := by
  induction d with
  | zero => exact List.prefix_rfl
  | succ d ih =>
    rw [← Nat.add_assoc, acceptedIn_played_succ]
    exact ih.trans (List.prefix_append _ _)

theorem acceptedIn_played_of_hasPublisher {k : Nat}
    (hp : (m.states h labels k).bridge.link.feed.hasPublisher = false) (d : Nat) :
    m.acceptedIn h (m.played h labels (k + d)) = m.acceptedIn h (m.played h labels k) ∧
      (m.states h labels (k + d)).bridge.link.feed.hasPublisher = false := by
  induction d with
  | zero => exact ⟨rfl, hp⟩
  | succ d ih =>
    rw [← Nat.add_assoc, acceptedIn_played_succ, states_succ]
    cases hs : (m.states h labels (k + d)).step? h (labels (k + d)) with
    | none => simpa using ih
    | some next =>
      obtain ⟨haccepted, hnext⟩ := hasPublisher_step? hs ih.2
      refine ⟨?_, hnext⟩
      rw [Option.bind_some, haccepted, Option.toList_none, List.append_nil]
      exact ih.1

theorem rank_states_of_moves {n k : Nat}
    (hn : (m.states h labels (k + 1)).bridge.entries ≤ n) (hm : m.Moves h labels k) :
    Bridge.RankLt ((m.states h labels (k + 1)).bridge.rank n)
      ((m.states h labels k).bridge.rank n) := by
  obtain ⟨hl, hs⟩ := hm
  obtain ⟨next, hs⟩ := Option.isSome_iff_exists.mp hs
  have hnext : m.states h labels (k + 1) = next := by
    rw [states_succ, hs]
    rfl
  rw [hnext] at hn ⊢
  cases hlabel : labels k with
  | supply x =>
    rw [hlabel] at hl
    cases hl
  | bridge label =>
    rw [hlabel] at hl hs
    obtain ⟨b, hb, rfl⟩ := Option.map_eq_some_iff.mp hs
    exact Bridge.rank_step hl hb hn

theorem rank_states_of_not_moves {k : Nat} (hk : labels k ≠ .bridge .loseConsumer)
    (hm : ¬ m.Moves h labels k) (n : Nat) :
    (m.states h labels (k + 1)).bridge.rank n = (m.states h labels k).bridge.rank n := by
  rw [states_succ]
  cases hs : (m.states h labels k).step? h (labels k) with
  | none => rfl
  | some next =>
    cases hlabel : labels k with
    | supply x =>
      rw [hlabel] at hs
      obtain ⟨d, -, hes, rfl⟩ := step?_supply hs
      exact Bridge.rank_aside (aside_fed _ _ hes) _ n
    | bridge label =>
      rw [hlabel] at hk hs
      have hl : label.isOfSides = false := by
        cases hl : label.isOfSides with
        | false => rfl
        | true => exact (hm ⟨by rw [hlabel]; exact hl, by rw [hlabel, hs]; rfl⟩).elim
      obtain ⟨b, hb, rfl⟩ := Option.map_eq_some_iff.mp hs
      exact Bridge.rank_outside hl (fun heq => hk (by rw [heq])) hb n

theorem comesToEnd_of_fair (hh : h.IsCalm) (hw : h.IsWhole) (hi : Running g accepted m)
    (hl : ∀ k, labels k ≠ .bridge .loseConsumer) (hf : m.Fair h labels) {first : Nat}
    (hends : (∃ report, .failure report ∈ accepted ++ m.acceptedIn h (m.played h labels first)) ∨
      (m.states h labels first).bridge.link.feed.hasPublisher = false) :
    m.ComesToEnd h labels := by
  have hrun (k : Nat) : Running g (accepted ++ m.acceptedIn h (m.played h labels k))
      (m.states h labels k) := by
    refine hi.run? hh hw (fun hm => ?_) (run?_played k)
    obtain ⟨j, hj⟩ := mem_played hm
    exact hl j hj.symm
  have hgrows (k d : Nat) : accepted ++ m.acceptedIn h (m.played h labels k) <+:
      accepted ++ m.acceptedIn h (m.played h labels (k + d)) :=
    (List.prefix_append_right_inj _).mpr (acceptedIn_played_isPrefix k d)
  have hlater (d : Nat) : (∃ report, .failure report ∈
      accepted ++ m.acceptedIn h (m.played h labels (first + d))) ∨
        (m.states h labels (first + d)).bridge.link.feed.hasPublisher = false := by
    rcases hends with ⟨report, hmem⟩ | hp
    · exact .inl ⟨report, (hgrows first d).subset hmem⟩
    · exact .inr (acceptedIn_played_of_hasPublisher hp d).2
  -- no more is ever fetched than was accepted up to `first`
  have hfew (k : Nat) :
      (Tally.ofTrace (m.states h labels k).bridge.link.trace).fetched.length ≤
        (accepted ++ m.acceptedIn h (m.played h labels first)).length := by
    rcases Nat.le_total k first with hle | hle
    · obtain ⟨d, rfl⟩ := Nat.exists_eq_add_of_le hle
      simpa using ((hrun k).fetched.trans (hgrows k d)).length_le
    · obtain ⟨d, rfl⟩ := Nat.exists_eq_add_of_le hle
      refine (hrun (first + d)).length_fetched_le (hgrows first d) ?_
      rcases hends with hfailure | hp
      · exact .inl hfailure
      · exact .inr (by rw [(acceptedIn_played_of_hasPublisher hp d).1])
  have hsteady (k : Nat) : (m.states h labels k).bridge.Holds (Steady g) := by
    obtain ⟨p, hp, hs, -⟩ := (hrun k).holds
    exact ⟨p, hp, hs⟩
  have hentries (k : Nat) : (m.states h labels k).bridge.entries ≤
      (accepted ++ m.acceptedIn h (m.played h labels first)).length + 1 := by
    obtain ⟨p, -, hs⟩ := hsteady k
    exact Nat.le_trans (Bridge.entries_le_of_steady hs) (Nat.succ_le_succ (hfew k))
  -- so the fetches are finitely many, and the sides step for a last time
  obtain ⟨last, hlast⟩ := exists_last_descent Bridge.wellFounded_rankLt
    (f := fun k => (m.states h labels k).bridge.rank _)
    (fun k hm => rank_states_of_moves (hentries (k + 1)) hm)
    (fun k hm => rank_states_of_not_moves (hl k) hm _)
  refine Bridge.exists_gone_of_last hsteady hlast (fun k _ => ⟨first + k, by omega, ?_⟩) hf
  exact (hrun _).not_awaitsSource (hlater k)

end Schedules

/-- Callers supply a fresh channel before a bridge is created over it and after that, the handler
returns and the task is kept. Then the bridge delivers what the channel accepts, and it comes to its
end after a failure and after the last publisher is gone. -/
theorem delivers_of_kept {before : List Supply} {d : Depot Channel}
    (hd : Depot.supplyAll? { feed := {} } before = some d) (config : ThreadRequest) (taken : UInt32)
    (hc : (({ feed := d.feed } : Source Channel).create config taken d.noted).failure? = none)
    {h : Handler} (hh : h.IsCalm) (hw : h.IsWhole) :
    (∀ labels m, .bridge .loseConsumer ∉ labels →
      (begin { feed := {} } d config taken).run? h labels = some m →
      m.bridge.Delivers (Depot.acceptedIn { feed := {} } before ++
        (begin { feed := {} } d config taken).acceptedIn h labels)) ∧
    ∀ labels : Nat → Label, (∀ k, labels k ≠ .bridge .loseConsumer) →
      (begin { feed := {} } d config taken).Fair h labels → ∀ first,
      (∃ report, .failure report ∈ Depot.acceptedIn { feed := {} } before ++
        (begin { feed := {} } d config taken).acceptedIn h
          ((begin { feed := {} } d config taken).played h labels first)) ∨
        ((begin { feed := {} } d config taken).states h labels
          first).bridge.link.feed.hasPublisher = false →
      (begin { feed := {} } d config taken).ComesToEnd h labels := by
  have hbegin := running_begin hd config taken hc
  constructor
  · intro labels m hl hr
    refine (hbegin.run? hh hw hl hr).delivers fun s => ?_
    have haccounts : (begin { feed := {} } d config taken).bridge.Accounts d.feed d.noted :=
      Source.accounts_create { feed := d.feed } config taken d.noted
    have hfresh : Stock.Fresh ({} : Channel) := ⟨rfl, rfl⟩
    have hall := (haccounts.conserved_begin hfresh hd).trans (conserved_run? hr)
    have hcopies := hall.copies s
    have hborn : born 0 (Stock.made m.bridge.link.feed) s ≤ 1 := by
      unfold born
      split <;> omega
    simp [records, Bridge.records, Link.records] at hcopies
    omega
  · exact fun labels hl hf first hends => comesToEnd_of_fair hh hw hbegin hl hf hends

theorem states_sides {σ : Type} [Feed σ] [Stock σ] (m : Supplied σ) (labels : Nat → Bridge.Label)
    (k : Nat) : m.states h (fun k => .bridge (labels k)) k =
      { m with bridge := m.bridge.states h labels k } := by
  induction k with
  | zero => rfl
  | succ k ih =>
    rw [states_succ, ih, Bridge.states_succ, step?]
    cases (m.bridge.states h labels k).step? h (labels k) <;> rfl

theorem fair_sides {σ : Type} [Feed σ] [Stock σ] {m : Supplied σ} {labels : Nat → Bridge.Label}
    (hf : ∀ k, ((m.bridge.states h labels k).advance? h).isSome →
      ∃ j, k ≤ j ∧ m.bridge.Moves h labels j) :
    m.Fair h fun k => .bridge (labels k) := by
  intro k hk
  rw [states_sides] at hk
  obtain ⟨j, hj, hl, hs⟩ := hf k hk
  refine ⟨j, hj, hl, ?_⟩
  rw [states_sides, step?, Option.isSome_map]
  exact hs

/-- Two publishers, of whom each has a record in the channel before there is a bridge. -/
def twoPublishersBefore : List Supply :=
  [.ask (.publish 0 1), .ask (.clone 0), .make 2, .send 1 ⟨2, 1⟩]

def twoPublishersDepot : Depot Channel :=
  (Depot.supplyAll? { feed := {} } twoPublishersBefore).getD { feed := {} }

/-- Over the first record the handler reports a failure. -/
def twoPublishersHandler : Handler :=
  fun n _ => if n = 0 then [.publish (.fail 1 ⟨"gone", []⟩)] else []

def twoPublishersLabels : List Label :=
  .bridge .consume :: (List.replicate 4 (.bridge .produce) ++
    List.replicate 4 (.bridge .consume) ++ [.supply (.ask (.publish 0 3))] ++
    List.replicate 4 (.bridge .produce) ++ List.replicate 3 (.bridge .consume) ++
    List.replicate 6 (.bridge .produce) ++ List.replicate 7 (.bridge .consume))

theorem isCalm_twoPublishersHandler : twoPublishersHandler.IsCalm := by
  intro n r x
  simp only [twoPublishersHandler]
  split <;> simp

theorem isWhole_twoPublishersHandler : twoPublishersHandler.IsWhole := by
  intro n r
  simp only [twoPublishersHandler]
  split <;> simp

/-- The two records before the failure are handled and counted, and the one after it is released. If
the sides take turns alone they come to their end, too. -/
theorem delivers_twoPublishers :
    (∃ m, (begin { feed := {} } twoPublishersDepot {} 0).run? twoPublishersHandler
        twoPublishersLabels = some m ∧
      m.bridge.completion? = some (.failed (.sourceFailed 2 ⟨"gone", []⟩)) ∧
      m.bridge.Delivers
        [.record ⟨1, 0⟩, .record ⟨2, 1⟩, .failure ⟨"gone", []⟩, .record ⟨3, 2⟩]) ∧
    (begin { feed := {} } twoPublishersDepot {} 0).Fair twoPublishersHandler
      (fun k => .bridge (.inTurn k)) ∧
    (begin { feed := {} } twoPublishersDepot {} 0).ComesToEnd twoPublishersHandler
      (fun k => .bridge (.inTurn k)) := by
  have hd : Depot.supplyAll? { feed := ({} : Channel) } twoPublishersBefore =
      some twoPublishersDepot := by decide +kernel
  have hc : (({ feed := twoPublishersDepot.feed } : Source Channel).create {} 0
      twoPublishersDepot.noted).failure? = none := by decide +kernel
  obtain ⟨hdelivers, hends⟩ :=
    delivers_of_kept hd {} 0 hc isCalm_twoPublishersHandler isWhole_twoPublishersHandler
  have hrun : ((begin { feed := {} } twoPublishersDepot {} 0).run? twoPublishersHandler
      twoPublishersLabels).map (·.bridge.completion?) =
        some (some (.failed (.sourceFailed 2 ⟨"gone", []⟩))) := by decide +kernel
  have haccepted : Depot.acceptedIn { feed := {} } twoPublishersBefore ++
      (begin { feed := {} } twoPublishersDepot {} 0).acceptedIn twoPublishersHandler
        twoPublishersLabels =
          [.record ⟨1, 0⟩, .record ⟨2, 1⟩, .failure ⟨"gone", []⟩, .record ⟨3, 2⟩] := by
    decide +kernel
  have hfair : (begin { feed := {} } twoPublishersDepot {} 0).Fair twoPublishersHandler
      (fun k => .bridge (.inTurn k)) := by
    have hrest : ((begin { feed := {} } twoPublishersDepot {} 0).bridge.states
        twoPublishersHandler .inTurn 50).advance? twoPublishersHandler = none := by
      decide +kernel
    have hmoves : ∀ k < 50, ∃ j < 2,
        (begin { feed := {} } twoPublishersDepot {} 0).bridge.Moves twoPublishersHandler
          .inTurn (k + j) := by decide +kernel
    exact fair_sides fun k hk =>
      Bridge.moves_of_rest Bridge.Label.isOfSides_inTurn hrest hmoves hk
  refine ⟨?_, hfair, hends _ (fun k hk => ?_) hfair 20 (.inl ⟨⟨"gone", []⟩, ?_⟩)⟩
  · obtain ⟨m, hr, hv⟩ := Option.map_eq_some_iff.mp hrun
    refine ⟨m, hr, hv, ?_⟩
    rw [← haccepted]
    exact hdelivers _ m (by decide) hr
  · have hl := Bridge.Label.isOfSides_inTurn k
    rw [Label.bridge.inj hk] at hl
    cases hl
  · decide +kernel

end Supplied

end Handoff
