import Handoff.Proofs.Progress

/-! All orders of steps: no side of a kept bridge waits in vain, and in every order both sides come
to their end. -/
namespace Handoff

/-- A sequence that goes down at some places and stays level at all others goes down for a last
time. -/
theorem exists_last_descent {α : Type} {r : α → α → Prop} (hr : WellFounded r) {f : Nat → α}
    {P : Nat → Prop} (hdown : ∀ k, P k → r (f (k + 1)) (f k))
    (hlevel : ∀ k, ¬ P k → f (k + 1) = f k) : ∃ last, ∀ k ≥ last, ¬ P k := by
  have hfrom (x : α) : ∀ k, f k = x → ∃ last, ∀ j ≥ last, ¬ P j := by
    induction x using hr.induction with
    | _ x ih =>
      -- The next descent is `d` places ahead, and the sequence is level until then.
      have hnext (d : Nat) : ∀ k, f k = x → P (k + d) → ∃ last, ∀ j ≥ last, ¬ P j := by
        induction d with
        | zero => exact fun k hk hP => ih _ (hk ▸ hdown k hP) (k + 1) rfl
        | succ d ihd =>
          intro k hk hP
          by_cases hPk : P k
          · exact ih _ (hk ▸ hdown k hPk) (k + 1) rfl
          · have hP' : P (k + 1 + d) := by rwa [Nat.add_assoc, Nat.add_comm 1 d]
            exact ihd (k + 1) ((hlevel k hPk).trans hk) hP'
      intro k hk
      by_cases hP : ∃ j, k ≤ j ∧ P j
      · obtain ⟨j, hj, hPj⟩ := hP
        obtain ⟨d, rfl⟩ := Nat.exists_eq_add_of_le hj
        exact hnext d k hk hPj
      · exact ⟨k, fun j hj hPj => hP ⟨j, hj, hPj⟩⟩
  exact hfrom (f 0) 0 rfl

namespace Bridge

variable {σ : Type} [Feed σ]

/-- The producer is inside of a fetch that the source cannot answer yet. -/
def AwaitsSource (b : Bridge σ) : Prop :=
  ∃ p, b.producer = some p ∧ p.place = .waiting ∧ Feed.receive? b.link.feed = none

/-- Nobody waits for what cannot come. -/
structure Lively (h : Handler) (b : Bridge σ) : Prop where
  /-- Until the task is gone one of the sides can step. -/
  enabled : b.consumer.place ≠ .gone → ¬ b.AwaitsSource →
    (b.step? h .produce).isSome ∨ (b.step? h .consume).isSome
  /-- A call is answered, or a consumer who has not left is about to take it or holds it. -/
  call : ∀ p ticket, b.producer = some p → p.place = .calling ticket →
    (b.step? h .produce).isSome ∨ (b.consumer.place.isLeaving = false ∧
      ((∃ r, b.link.queue.calls = [⟨ticket, r⟩]) ∨ b.consumer.place.ticket? = some ticket))
  /-- Nobody waits at an empty queue whose sender is gone. -/
  closed : b.consumer.place = .receiving → b.link.queue.isClosed → (b.step? h .consume).isSome
  context : b.consumer.place = .awaiting → ∃ g, b.consumer.context = .sent g
  /-- A producer that is joined needs nobody any more. -/
  joined : ∀ g, b.consumer.place = .joining g → b.exit?.isSome

theorem isSome_advance? (h : Handler) (b : Bridge σ) :
    (b.advance? h).isSome ↔ (b.step? h .produce).isSome ∨ (b.step? h .consume).isSome := by
  unfold advance?
  cases hc : b.step? h .consume with
  | none => simp
  | some next => simp

variable {h : Handler} {b b' : Bridge σ} {p : Producer} {g : UInt32}

theorem enabled_of_steady (hp : b.producer = some p) (hi : Steady g p b.consumer b.link)
    (hgone : b.consumer.place ≠ .gone) (hw : ¬ b.AwaitsSource) : (b.advance? h).isSome := by
  cases hr : b.advance? h with
  | some next => rfl
  | none =>
    obtain ⟨hpstep, hcstep⟩ := rest_of_advance? hp hi.served.alive hr
    rcases hi.rest hpstep hcstep with ⟨hplace, hf⟩ | ⟨-, hplace⟩
    · exact (hw ⟨p, hp, hplace, hf⟩).elim
    · exact (hgone hplace).elim

theorem call_of_steady (hp : b.producer = some p) (hi : Steady g p b.consumer b.link) {ticket : Nat}
    (hcall : p.place = .calling ticket) :
    (b.step? h .produce).isSome ∨ (b.consumer.place.isLeaving = false ∧
      ((∃ r, b.link.queue.calls = [⟨ticket, r⟩]) ∨ b.consumer.place.ticket? = some ticket)) := by
  have hdead : b.abort? = none := (abort?_of_producer hp).trans hi.served.alive
  have hstay : b.consumer.place.isLeaving = false := by
    cases hl : b.consumer.place.isLeaving with
    | false => rfl
    | true =>
      have he := hi.attended.ended hl
      simp [Producer.exit?, hcall] at he
  have haligned := hi.aligned
  simp only [Producer.Aligned, hcall] at haligned
  cases haligned.1 with
  | queued hc hq => exact .inr ⟨hstay, .inl ⟨_, hq⟩⟩
  | taken hc | returning hc | unwinding hc => exact .inr ⟨hstay, .inr (by simp [hc])⟩
  | handled hc hq ha =>
    have hstep := Producer.Step.collectHandled hcall (CallQueue.collect?_of_answers_eq ha)
    exact .inl (by rw [step?_eq_some_iff.mpr ⟨hdead, .produce hp hstep⟩]; rfl)
  | failed hc hq ha =>
    exact (hi.served.answers _ _ (by rw [ha]; exact List.mem_singleton_self _)).elim

theorem lively_of_steady (hp : b.producer = some p) (hi : Steady g p b.consumer b.link) :
    b.Lively h where
  enabled hgone hw := (isSome_advance? h b).mp (enabled_of_steady hp hi hgone hw)
  call p' ticket hp' hcall := by
    cases hp.symm.trans hp'
    exact call_of_steady hp hi hcall
  closed hplace hq := by
    have hdead : b.abort? = none := (abort?_of_producer hp).trans hi.served.alive
    obtain ⟨hcalls, hs⟩ : b.link.queue.calls = [] ∧ b.link.queue.hasSender = false := by
      simpa [CallQueue.isClosed] using hq
    have hstep : Consumer.Step h b.exit? b.consumer b.link
        { b.consumer with place := .awaiting } b.link :=
      .drained hplace (CallQueue.take?_eq_none_iff.mpr hcalls) hs
    rw [step?_eq_some_iff.mpr ⟨hdead, .consume hstep⟩]
    rfl
  context hplace := by
    have ha := hi.attended
    simp only [Consumer.Attended, hplace] at ha
    exact ⟨g, ha.1⟩
  joined g' hplace := by
    have he := hi.informed.closing (by simp [hplace])
    simpa [exit?_of_producer hp] using he

/-- The states of a bridge while labels are tried one after another; what is not possible in its
turn is passed over. -/
def states (h : Handler) (b : Bridge σ) (labels : Nat → Label) : Nat → Bridge σ
  | 0 => b
  | k + 1 =>
    let m := b.states h labels k
    (m.step? h (labels k)).getD m

/-- One of the sides steps in its turn. -/
def Moves (h : Handler) (b : Bridge σ) (labels : Nat → Label) (k : Nat) : Prop :=
  (labels k).isOfSides ∧ ((b.states h labels k).step? h (labels k)).isSome

instance (h : Handler) (b : Bridge σ) (labels : Nat → Label) (k : Nat) :
    Decidable (b.Moves h labels k) := inferInstanceAs (Decidable (_ ∧ _))

/-- No fetch stays without an answer for good, and neither do the sides stand still for good while
one of them can step. -/
structure Fair (h : Handler) (b : Bridge σ) (labels : Nat → Label) : Prop where
  answered : ∀ k, (b.states h labels k).AwaitsSource →
    ∃ j, k ≤ j ∧ ¬ (b.states h labels j).AwaitsSource
  moves : ∀ k, ((b.states h labels k).advance? h).isSome → ∃ j, k ≤ j ∧ b.Moves h labels j

variable {labels : Nat → Label}

theorem states_succ (k : Nat) : b.states h labels (k + 1) =
    ((b.states h labels k).step? h (labels k)).getD (b.states h labels k) := rfl

theorem holds_states {allowed : Label → Prop} {I : Producer → Consumer → Link σ → Prop}
    (hI : Invariant h allowed I) (ha : ∀ k, allowed (labels k)) (hb : b.Holds I) (k : Nat) :
    (b.states h labels k).Holds I := by
  induction k with
  | zero => exact hb
  | succ k ih =>
    rw [states_succ]
    cases hs : (b.states h labels k).step? h (labels k) with
    | none => exact ih
    | some next => exact hI.step (ha k) hs ih

def RankLt : Nat × Nat × Nat × Nat → Nat × Nat × Nat × Nat → Prop :=
  Prod.Lex (· < ·) (Prod.Lex (· < ·) (Prod.Lex (· < ·) (· < ·)))

theorem wellFounded_rankLt : WellFounded RankLt :=
  (inferInstance : WellFoundedRelation (Nat × Nat × Nat × Nat)).wf

omit [Feed σ] in
theorem rank_aside {l : Link σ} (hs : b.link.Aside l) (wakes n : Nat) :
    ({ b with link := l, wakes := wakes } : Bridge σ).rank n = b.rank n := by
  unfold rank entries
  rw [hs.tally, hs.queue]

theorem rank_outside {label : Label} (hl : label.isOfSides = false) (hk : label ≠ .loseConsumer)
    (hs : b.step? h label = some b') (n : Nat) : b'.rank n = b.rank n := by
  cases (step?_eq_some_iff.mp hs).2 with
  | produce | consume => cases hl
  | loseConsumer => exact (hk rfl).elim
  | raise => exact rank_aside b.link.aside_raise _ n
  | wake => exact rank_aside b.link.aside_wake _ n
  | publish x => exact rank_aside (b.link.aside_publish x) _ n
  | letGo => rfl

theorem rank_states_of_moves {n k : Nat} (hn : (b.states h labels (k + 1)).entries ≤ n)
    (hm : b.Moves h labels k) :
    RankLt ((b.states h labels (k + 1)).rank n) ((b.states h labels k).rank n) := by
  obtain ⟨hl, hs⟩ := hm
  obtain ⟨next, hs⟩ := Option.isSome_iff_exists.mp hs
  have hnext : b.states h labels (k + 1) = next := by
    rw [states_succ, hs]
    rfl
  rw [hnext] at hn ⊢
  exact rank_step hl hs hn

theorem rank_states_of_not_moves {k : Nat} (hk : labels k ≠ .loseConsumer)
    (hm : ¬ b.Moves h labels k) (n : Nat) :
    (b.states h labels (k + 1)).rank n = (b.states h labels k).rank n := by
  cases hs : (b.states h labels k).step? h (labels k) with
  | none =>
    rw [states_succ, hs]
    rfl
  | some next =>
    have hl : (labels k).isOfSides = false := by
      cases hl : (labels k).isOfSides with
      | false => rfl
      | true => exact (hm ⟨hl, by simp [hs]⟩).elim
    rw [states_succ, hs]
    exact rank_outside hl hk hs n

omit [Feed σ] in
/-- A fetch is begun after all records fetched before have been handled. -/
theorem entries_le_of_steady (hi : Steady g p b.consumer b.link) :
    b.entries ≤ (Tally.ofTrace b.link.trace).fetched.length + 1 := by
  have hy := hi.aligned.lockstep
  have hle := (hy.returned_prefix.trans hy.passed_prefix).length_le
  have he := hy.entries
  unfold entries
  omega

/-- The sides step for a last time, and if they were not held up the task is gone then. -/
theorem exists_gone_of_last {B : Nat → Bridge σ} (hb : ∀ k, (B k).Holds (Steady g))
    {P : Nat → Prop} {last : Nat} (hlast : ∀ k ≥ last, ¬ P k)
    (hanswered : ∀ k, (B k).AwaitsSource → ∃ j, k ≤ j ∧ ¬ (B j).AwaitsSource)
    (hmoves : ∀ k, ((B k).advance? h).isSome → ∃ j, k ≤ j ∧ P j) :
    ∃ k, (B k).consumer.place = .gone ∧
      ((B k).consumer.signal.isHeld → (B k).completion?.isSome) := by
  -- whoever is not held up and steps no more has nothing left to do
  have hstuck (k : Nat) (hle : last ≤ k) (hw : ¬ (B k).AwaitsSource) :
      (B k).consumer.place = .gone := by
    obtain ⟨p, hp, hi⟩ := hb k
    cases hg : (B k).consumer.place with
    | gone => rfl
    | _ =>
      obtain ⟨j, hj, hm⟩ := hmoves k (enabled_of_steady hp hi (by simp [hg]) hw)
      exact (hlast j (by omega) hm).elim
  obtain ⟨k, hle, hw⟩ : ∃ k, last ≤ k ∧ ¬ (B k).AwaitsSource := by
    by_cases hw : (B last).AwaitsSource
    · exact hanswered last hw
    · exact ⟨last, Nat.le_refl _, hw⟩
  have hgone := hstuck k hle hw
  obtain ⟨p, -, hi⟩ := hb k
  have ha := hi.attended
  simp only [Consumer.Attended, hgone] at ha
  exact ⟨k, hgone, ha.2.2.2⟩

/-- What the labels come to if no more than `n` fetches are begun while they are tried. -/
structure RunsDown (h : Handler) (b : Bridge σ) (labels : Nat → Label) (n : Nat) : Prop where
  /-- Every step of a side leaves less to be done. -/
  down : ∀ k, b.Moves h labels k →
    RankLt ((b.states h labels (k + 1)).rank n) ((b.states h labels k).rank n)
  level : ∀ k, ¬ b.Moves h labels k →
    (b.states h labels (k + 1)).rank n = (b.states h labels k).rank n
  finite : ∃ last, ∀ k ≥ last, ¬ b.Moves h labels k
  /-- Unless the sides are held up, both end, and the caller who waits is told. -/
  complete : b.Fair h labels → ∃ k, (b.states h labels k).consumer.place = .gone ∧
    ((b.states h labels k).consumer.signal.isHeld → (b.states h labels k).completion?.isSome)

theorem runsDown_of_steady (hh : h.IsCalm) (hb : b.Holds (Steady g))
    (hk : ∀ k, labels k ≠ .loseConsumer) {n : Nat}
    (hn : ∀ k, (Tally.ofTrace (b.states h labels k).link.trace).fetched.length ≤ n) :
    b.RunsDown h labels (n + 1) := by
  have hentries (k : Nat) : (b.states h labels k).entries ≤ n + 1 := by
    obtain ⟨p, -, hi⟩ := holds_states (invariant_steady hh g) hk hb k
    exact Nat.le_trans (entries_le_of_steady hi) (Nat.succ_le_succ (hn k))
  have hdown (k : Nat) (hm : b.Moves h labels k) :
      RankLt ((b.states h labels (k + 1)).rank (n + 1)) ((b.states h labels k).rank (n + 1)) :=
    rank_states_of_moves (hentries (k + 1)) hm
  have hlevel (k : Nat) (hm : ¬ b.Moves h labels k) :
      (b.states h labels (k + 1)).rank (n + 1) = (b.states h labels k).rank (n + 1) :=
    rank_states_of_not_moves (hk k) hm (n + 1)
  obtain ⟨last, hlast⟩ := exists_last_descent wellFounded_rankLt
    (f := fun k => (b.states h labels k).rank (n + 1)) hdown hlevel
  have hsteady := holds_states (invariant_steady hh g) hk hb
  exact ⟨hdown, hlevel, ⟨last, hlast⟩, fun hf =>
    exists_gone_of_last hsteady hlast hf.answered hf.moves⟩

/-- The task is kept and the handler returns. Then one of the sides can step until the end, and if
only finitely many records are fetched, both get there in whatever order all steps are taken. -/
theorem runsDown_of_kept (u : Usage σ) (taken : UInt32) (hc : (u.begin taken).failure? = none)
    (hh : u.handler.IsCalm) :
    (∀ labels b, .loseConsumer ∉ labels → (u.begin taken).bridge.run? u.handler labels = some b →
      b.Lively u.handler) ∧
    ∀ (labels : Nat → Label) (n : Nat), (∀ k, labels k ≠ .loseConsumer) →
      (∀ k, (Tally.ofTrace
        ((u.begin taken).bridge.states u.handler labels k).link.trace).fetched.length ≤ n) →
      (u.begin taken).bridge.RunsDown u.handler labels (n + 1) := by
  obtain ⟨p₀, hp₀, hf⟩ := u.fresh_begin taken hc
  have hbegin : (u.begin taken).bridge.Holds (Steady (nextGeneration taken)) :=
    ⟨p₀, hp₀, hf.steady⟩
  constructor
  · intro labels b hk hr
    obtain ⟨p, hp, hi⟩ :=
      (invariant_steady hh _).run (fun l hl => by rintro rfl; exact hk hl) hr hbegin
    exact lively_of_steady hp hi
  · intro labels n hk hn
    exact runsDown_of_steady hh hbegin hk hn

theorem states_of_rest (hl : ∀ k, (labels k).isOfSides) {k : Nat}
    (hr : (b.states h labels k).advance? h = none) (d : Nat) :
    b.states h labels (k + d) = b.states h labels k := by
  induction d with
  | zero => rfl
  | succ d ih =>
    have hnone : (b.states h labels k).step? h (labels (k + d)) = none := by
      obtain ⟨hc, hp⟩ : (b.states h labels k).step? h .consume = none ∧
          (b.states h labels k).step? h .produce = none := by simpa [advance?] using hr
      have hside := hl (k + d)
      cases hlabel : labels (k + d) with
      | produce => exact hp
      | consume => exact hc
      | raise | wake | publish | loseConsumer | letGo => simp [hlabel, Label.isOfSides] at hside
    rw [← Nat.add_assoc, states_succ, ih, hnone]
    rfl

theorem moves_of_rest (hl : ∀ k, (labels k).isOfSides) {n : Nat}
    (hr : (b.states h labels n).advance? h = none)
    (hm : ∀ k < n, ∃ j < 2, b.Moves h labels (k + j)) {k : Nat}
    (hk : ((b.states h labels k).advance? h).isSome) : ∃ j, k ≤ j ∧ b.Moves h labels j := by
  by_cases hlt : k < n
  · obtain ⟨j, -, hj⟩ := hm k hlt
    exact ⟨k + j, Nat.le_add_right k j, hj⟩
  · obtain ⟨d, rfl⟩ := Nat.exists_eq_add_of_le (Nat.not_lt.mp hlt)
    rw [states_of_rest hl hr, hr] at hk
    cases hk

end Bridge

/-- The two sides take turns. -/
def Bridge.Label.inTurn (k : Nat) : Bridge.Label := if k % 2 = 0 then .produce else .consume

theorem Bridge.Label.isOfSides_inTurn (k : Nat) : (inTurn k).isOfSides := by
  unfold inTurn
  split <;> rfl

/-- Taking turns, both sides have handed over two records and come to rest after 54 turns. -/
theorem Bridge.runsDown_twoRecords :
    (∃ b, (Usage.twoRecords.begin 0).bridge.run? Usage.twoRecords.handler
        (Usage.twoRecordsLabels.take 14) = some b ∧ b.Lively Usage.twoRecords.handler) ∧
      (Usage.twoRecords.begin 0).bridge.Fair Usage.twoRecords.handler Label.inTurn ∧
      (Usage.twoRecords.begin 0).bridge.RunsDown Usage.twoRecords.handler Label.inTurn 3 := by
  have hc : (Usage.twoRecords.begin 0).failure? = none := by decide +kernel
  obtain ⟨hlively, hdown⟩ := runsDown_of_kept Usage.twoRecords 0 hc Usage.isCalm_twoRecords
  have hrest : ((Usage.twoRecords.begin 0).bridge.states Usage.twoRecords.handler Label.inTurn
      54).advance? Usage.twoRecords.handler = none := by decide +kernel
  have hstay := states_of_rest Label.isOfSides_inTurn hrest
  refine ⟨?_, ⟨?_, ?_⟩, hdown Label.inTurn 2 ?_ ?_⟩
  · have hr : ((Usage.twoRecords.begin 0).bridge.run? Usage.twoRecords.handler
        (Usage.twoRecordsLabels.take 14)).isSome := by decide +kernel
    obtain ⟨b, hr⟩ := Option.isSome_iff_exists.mp hr
    exact ⟨b, hr, hlively _ b (by decide) hr⟩
  · rintro k ⟨p, -, -, hf⟩
    cases hf
  · have hmoves : ∀ k < 54, ∃ j < 2,
        Moves Usage.twoRecords.handler (Usage.twoRecords.begin 0).bridge Label.inTurn (k + j) := by
      decide +kernel
    exact fun k hk => moves_of_rest Label.isOfSides_inTurn hrest hmoves hk
  · intro k hk
    have hl := Label.isOfSides_inTurn k
    simp [hk, Label.isOfSides] at hl
  · intro k
    have hfew : ∀ k < 55, (Tally.ofTrace ((Usage.twoRecords.begin 0).bridge.states
        Usage.twoRecords.handler Label.inTurn k).link.trace).fetched.length ≤ 2 := by
      decide +kernel
    by_cases hlt : k < 54
    · exact hfew k (by omega)
    · obtain ⟨d, rfl⟩ := Nat.exists_eq_add_of_le (Nat.not_lt.mp hlt)
      rw [hstay]
      exact hfew 54 (by omega)

end Handoff
