import Handoff.Fixture.Player
import Handoff.Proofs.Tally

/-! A script that is played by hand: which step each fetch is answered with, and what the journal
and the ledger tell of it. -/
namespace Handoff

namespace Script

/-- The id of the record that a step makes. The greatest id has no successor, and its step panics
before there is a record. -/
def Step.makes? : Step → Option UInt32
  | .yield id => if id = 0xffffffff then none else some id
  | .fail _ | .panic _ | .finish => none

/-- What a checked script that has made some records answers with a step. -/
def Step.answer (made : Nat) : Step → Outcome
  | .yield id =>
    if id = 0xffffffff then .panicked (.fixed overflowText) else .record ⟨id, made⟩
  | .fail report => .failed report
  | .panic p => .panicked p
  | .finish => .endMarker

/-- The id that follows the last one that these steps make, or the first id of all. -/
def follow (xs : List Step) : UInt32 := (xs.filterMap Step.makes?).getLast?.elim 0 (· + 1)

/-- The step that a fetch is answered with, counted from 0: one of the script or of its tail. -/
def stepAt (steps : List Step) (tail : Tail) (k : Nat) : Step :=
  match steps[k]? with
  | some x => x
  | none => match tail with
    | .finish => .finish
    | .yieldUntilStopped =>
      .yield (.ofNat (min ((follow steps).toNat + (k - steps.length)) 0xffffffff))

def firstSteps (steps : List Step) (tail : Tail) (k : Nat) : List Step :=
  (List.range k).map (stepAt steps tail)

/-- A script that was played for some fetches. -/
def played (steps : List Step) (tail : Tail) (k : Nat) : Script where
  steps := steps.drop k
  tail
  counting := .checked
  next := follow (firstSteps steps tail k)
  made := ((firstSteps steps tail k).filterMap Step.makes?).length

variable {steps : List Step} {tail : Tail} {k : Nat}

theorem record?_answer (x : Step) (made : Nat) :
    (x.answer made).record? = x.makes?.map fun id => ⟨id, made⟩ := by
  cases x with
  | yield id =>
    simp only [Step.answer, Step.makes?]
    split <;> rfl
  | fail | panic | finish => rfl

theorem follow_concat (xs : List Step) (x : Step) :
    follow (xs ++ [x]) = x.makes?.elim (follow xs) (· + 1) := by
  cases hx : x.makes? <;> simp [follow, List.filterMap_append, hx]

theorem firstSteps_succ : firstSteps steps tail (k + 1) =
    firstSteps steps tail k ++ [stepAt steps tail k] := by
  simp [firstSteps, List.range_succ]

theorem firstSteps_length : firstSteps steps tail steps.length = steps := by
  apply List.ext_getElem?
  intro i
  rcases Nat.lt_or_ge i steps.length with hlt | hge
  · simp [firstSteps, stepAt, hlt]
  · simp [firstSteps, hge]

theorem stepAt_add (j : Nat) : stepAt steps .yieldUntilStopped (steps.length + j) =
    .yield (.ofNat (min ((follow steps).toNat + j) 0xffffffff)) := by
  simp [stepAt]

/-- The tail counts on from the last id that was made, up to the greatest one. -/
theorem toNat_follow_firstSteps (j : Nat) :
    (follow (firstSteps steps .yieldUntilStopped (steps.length + j))).toNat =
      min ((follow steps).toNat + j) 0xffffffff := by
  induction j with
  | zero =>
    have hlt := (follow steps).toNat_lt
    rw [Nat.add_zero, firstSteps_length]
    omega
  | succ j ih =>
    rw [← Nat.add_assoc, firstSteps_succ, follow_concat, stepAt_add, ← ih, UInt32.ofNat_toNat]
    generalize follow (firstSteps steps .yieldUntilStopped (steps.length + j)) = id at ih ⊢
    by_cases hid : id = 0xffffffff
    -- the greatest id makes no record, so the tail stays where it is
    · have hmax : id.toNat = 0xffffffff := congrArg UInt32.toNat hid
      simp only [Step.makes?, if_pos hid, Option.elim_none]
      omega
    · have hmax : id.toNat ≠ 0xffffffff := fun h => hid (UInt32.toNat_inj.mp h)
      have hlt := id.toNat_lt
      have hsucc : (id + 1).toNat = (id.toNat + 1) % 2 ^ 32 := UInt32.toNat_add id 1
      simp only [Step.makes?, if_neg hid, Option.elim_some]
      omega

theorem stepAt_of_length_le (hk : steps.length ≤ k) : stepAt steps .yieldUntilStopped k =
    .yield (follow (firstSteps steps .yieldUntilStopped k)) := by
  obtain ⟨j, rfl⟩ := Nat.exists_eq_add_of_le hk
  rw [stepAt_add, ← toNat_follow_firstSteps, UInt32.ofNat_toNat]

theorem yield_eq (s : Script) (hs : s.counting = .checked) (id : UInt32) :
    s.yield id =
      ({ s with
          next := (Step.yield id).makes?.elim s.next (· + 1)
          made := s.made + (Step.yield id).makes?.toList.length },
        (Step.yield id).answer s.made) := by
  unfold yield
  by_cases hid : id = 0xffffffff
  · rw [if_pos ⟨hs, hid⟩]
    simp only [Step.makes?, Step.answer, if_pos hid]
    rfl
  · rw [if_neg fun h => hid h.2]
    simp only [Step.makes?, Step.answer, if_neg hid]
    rfl

theorem played_succ : played steps tail (k + 1) =
    { played steps tail k with
      steps := steps.drop (k + 1)
      next := (stepAt steps tail k).makes?.elim (played steps tail k).next (· + 1)
      made := (played steps tail k).made + (stepAt steps tail k).makes?.toList.length } := by
  simp only [played, firstSteps_succ, follow_concat, List.filterMap_append, List.length_append]
  cases hx : (stepAt steps tail k).makes? <;> simp [hx]

/-- Played once more, a script is at its next step and has answered with the one before. -/
theorem play_played : (played steps tail k).play =
    (played steps tail (k + 1), (stepAt steps tail k).answer (played steps tail k).made) := by
  have hgoes : ¬ ((played steps tail k).isStopped && (played steps tail k).heedsStop) := by
    exact Bool.false_ne_true
  unfold play
  rw [if_neg hgoes]
  rcases Nat.lt_or_ge k steps.length with hlt | hge
  · have hsteps : (played steps tail k).steps = steps[k] :: steps.drop (k + 1) :=
      List.drop_eq_getElem_cons hlt
    have hat : stepAt steps tail k = steps[k] := by simp [stepAt, hlt]
    rw [hsteps, played_succ, hat]
    cases steps[k] with
    | yield id => exact yield_eq _ rfl id
    | fail | panic | finish => rfl
  · have hsteps : (played steps tail k).steps = [] := List.drop_eq_nil_of_le hge
    have hdrop : steps.drop (k + 1) = (played steps tail k).steps := by
      rw [hsteps, List.drop_eq_nil_of_le (Nat.le_succ_of_le hge)]
    have hnext : played steps tail (k + 1) =
        { played steps tail k with
          next := (stepAt steps tail k).makes?.elim (played steps tail k).next (· + 1)
          made := (played steps tail k).made + (stepAt steps tail k).makes?.toList.length } := by
      rw [played_succ, hdrop]
    rw [hsteps, hnext]
    cases tail with
    | finish =>
      have hat : stepAt steps .finish k = .finish := by simp [stepAt, hge]
      rw [hat]
      rfl
    | yieldUntilStopped =>
      rw [stepAt_of_length_le hge]
      exact yield_eq _ rfl _

theorem play_stopped (s : Script) (hs : s.isStopped) (hh : s.heedsStop) :
    s.play = (s, .endMarker) := by
  simp [play, hs, hh]

end Script

namespace Fixture

namespace Entry

def isOfFetch : Entry → Bool
  | fetchEnter | fetchReturn _ => true
  | handlerEnter _ | handlerExit _ | stopRequested | fetcherDropped | completed => false

def ofFetch (o : Outcome) : List Entry := .fetchEnter :: (ofOutcome? o).toList

theorem isOfFetch_of_mem_ofFetch {o : Outcome} {e : Entry} (he : e ∈ ofFetch o) : e.isOfFetch := by
  cases o with
  | panicked p =>
    simp only [ofFetch, ofOutcome?, Option.toList_none, List.mem_singleton] at he
    rw [he]
    rfl
  | record | endMarker | failed =>
    simp only [ofFetch, ofOutcome?, Option.toList_some, List.mem_cons, List.not_mem_nil,
      or_false] at he
    rcases he with rfl | rfl <;> rfl

theorem count_ofFetch {o : Outcome} (e : Entry) (he : e.isOfFetch = false) :
    (ofFetch o).count e = 0 := by
  apply List.count_eq_zero.mpr
  intro hmem
  rw [isOfFetch_of_mem_ofFetch hmem] at he
  cases he

end Entry

namespace Player

def scripted (steps : List Script.Step) (tail : Script.Tail) : Player where
  script := { steps, tail, counting := .checked }

def Step.isFetch : Step → Bool
  | fetch | fetchKeep | fetchOn _ => true
  | release _ | stop | dropFetcher | unknown => false

def Result.outcome? : Result → Option Outcome
  | fetched o => some o
  | done | absent => none

/-- The number of fetches that the script was played for: those until the first stop, while there is
a fetcher. -/
def heard (xs : List Step) : Nat :=
  (xs.takeWhile fun x => x ≠ .stop ∧ x ≠ .dropFetcher).countP Step.isFetch

def answer (steps : List Script.Step) (tail : Script.Tail) (before : List Step) : Outcome :=
  if .stop ∈ before then .endMarker
  else
    (Script.stepAt steps tail (heard before)).answer (Script.played steps tail (heard before)).made

variable {steps : List Script.Step} {tail : Script.Tail} {p : Player} {x : Step} {xs : List Step}

theorem heard_append (before after : List Step) : heard (before ++ after) =
    if .stop ∈ before ∨ .dropFetcher ∈ before then heard before
    else heard before + heard after := by
  induction before with
  | nil => simp [heard]
  | cons y rest ih =>
    by_cases hy : y ≠ .stop ∧ y ≠ .dropFetcher
    · have hcons (zs : List Step) : heard (y :: zs) = heard zs + if y.isFetch then 1 else 0 := by
        simp only [heard, List.takeWhile_cons, decide_eq_true hy, if_true, List.countP_cons]
      rw [List.cons_append, hcons, hcons, ih]
      simp only [List.mem_cons, hy.1.symm, hy.2.symm, false_or]
      split <;> omega
    · have hnone (zs : List Step) : heard (y :: zs) = 0 := by
        simp [heard, hy]
      have hin : .stop ∈ y :: rest ∨ .dropFetcher ∈ y :: rest := by
        by_cases hstop : y = .stop
        · exact .inl (by simp [hstop])
        · exact .inr (by simp_all)
      rw [List.cons_append, hnone, hnone, if_pos hin]

theorem heard_singleton (x : Step) : heard [x] = if x.isFetch then 1 else 0 := by
  cases x <;> rfl

theorem step_of_isFetch (hx : x.isFetch) (hp : p.hasFetcher) :
    (p.step x).1 = .fetched p.script.play.2 ∧ (p.step x).2.script = p.script.play.1 ∧
      (p.step x).2.hasFetcher = true ∧
      (p.step x).2.journal = p.journal ++ Entry.ofFetch p.script.play.2 ∧
      (p.step x).2.ledger.created =
        p.ledger.created + p.script.play.2.record?.toList.length := by
  rcases hplay : p.script.play with ⟨s, o⟩
  cases x with
  | fetch | fetchKeep | fetchOn =>
    cases o <;>
      simp [step, fetchOnce, fetchKeep, fetch, hp, hplay, Entry.ofFetch, Ledger.create, Ledger.drop]
  | release | stop | dropFetcher | unknown => cases hx

theorem step_of_absent (hx : x.isFetch) (hp : p.hasFetcher = false) : p.step x = (.absent, p) := by
  cases x with
  | fetch | fetchKeep | fetchOn => simp [step, hp]
  | release | stop | dropFetcher | unknown => cases hx

/-- A player with a history: what was done with it since it was made. -/
structure After (steps : List Script.Step) (tail : Script.Tail) (xs : List Step) (p : Player) :
    Prop where
  script : p.script =
    { Script.played steps tail (heard xs) with isStopped := decide (.stop ∈ xs) }
  hasFetcher : p.hasFetcher = decide (.dropFetcher ∉ xs)
  created : p.ledger.created = (Script.played steps tail (heard xs)).made
  stops : p.journal.count .stopRequested = if .stop ∈ xs then 1 else 0
  drops : p.journal.count .fetcherDropped = if .dropFetcher ∈ xs then 1 else 0

namespace After

theorem start (steps : List Script.Step) (tail : Script.Tail) :
    After steps tail [] (scripted steps tail) := ⟨rfl, rfl, rfl, rfl, rfl⟩

theorem play (ha : After steps tail xs p) (hx : x.isFetch) (hd : .dropFetcher ∉ xs) :
    p.script.play =
        ({ Script.played steps tail (heard (xs ++ [x])) with isStopped := decide (.stop ∈ xs) },
          answer steps tail xs) ∧
      (Script.played steps tail (heard (xs ++ [x]))).made =
        (Script.played steps tail (heard xs)).made +
          (answer steps tail xs).record?.toList.length := by
  rw [ha.script, heard_append, heard_singleton]
  -- a stopped script answers at once, any other by its next step
  by_cases hstop : .stop ∈ xs
  · simp only [hstop, decide_true, true_or, if_true, answer]
    exact ⟨Script.play_stopped _ rfl rfl, rfl⟩
  · simp only [hstop, hd, decide_false, or_self, if_false, hx, if_true, answer]
    refine ⟨Script.play_played, ?_⟩
    rw [Script.played_succ, Script.record?_answer]
    cases (Script.stepAt steps tail (heard xs)).makes? <;> rfl

/-- Only the first stop and the first drop of the fetcher are more than what was there before. -/
theorem keep (ha : After steps tail xs p) {p' : Player} (hheard : heard (xs ++ [x]) = heard xs)
    (hstop : .stop ∈ xs ++ [x] ↔ .stop ∈ xs) (hdrop : .dropFetcher ∈ xs ++ [x] ↔ .dropFetcher ∈ xs)
    (hscript : p'.script = p.script) (hfetcher : p'.hasFetcher = p.hasFetcher)
    (hcreated : p'.ledger.created = p.ledger.created) (hjournal : p'.journal = p.journal) :
    After steps tail (xs ++ [x]) p' where
  script := by simp only [hheard, hstop, hscript, ha.script]
  hasFetcher := by simp only [hdrop, hfetcher, ha.hasFetcher]
  created := by rw [hheard, hcreated, ha.created]
  stops := by simp only [hstop, hjournal, ha.stops]
  drops := by simp only [hdrop, hjournal, ha.drops]

theorem step_fetch (ha : After steps tail xs p) (hx : x.isFetch) :
    After steps tail (xs ++ [x]) (p.step x).2 := by
  have hstop : .stop ∈ xs ++ [x] ↔ .stop ∈ xs := by
    simp only [List.mem_append, List.mem_singleton, or_iff_left_iff_imp]
    rintro rfl
    cases hx
  have hdrop : .dropFetcher ∈ xs ++ [x] ↔ .dropFetcher ∈ xs := by
    simp only [List.mem_append, List.mem_singleton, or_iff_left_iff_imp]
    rintro rfl
    cases hx
  by_cases hd : .dropFetcher ∈ xs
  · have hp : p.hasFetcher = false := by simp [ha.hasFetcher, hd]
    have hheard : heard (xs ++ [x]) = heard xs := by rw [heard_append, if_pos (.inr hd)]
    rw [step_of_absent hx hp]
    exact ha.keep hheard hstop hdrop rfl rfl rfl rfl
  · have hp : p.hasFetcher = true := by simp [ha.hasFetcher, hd]
    obtain ⟨hplay, hmade⟩ := ha.play hx hd
    obtain ⟨-, hscript, hfetcher, hjournal, hcreated⟩ := step_of_isFetch hx hp
    rw [hplay] at hscript hjournal hcreated
    exact {
      script := by simp only [hscript, hstop]
      hasFetcher := by simp [hfetcher, hdrop, hd]
      created := by rw [hcreated, hmade, ha.created]
      stops := by
        simp only [hjournal, List.count_append, hstop, ha.stops,
          Entry.count_ofFetch .stopRequested rfl, Nat.add_zero]
      drops := by
        simp only [hjournal, List.count_append, hdrop, ha.drops,
          Entry.count_ofFetch .fetcherDropped rfl, Nat.add_zero] }

theorem step (ha : After steps tail xs p) (x : Step) :
    After steps tail (xs ++ [x]) (p.step x).2 := by
  have hheard (hx : x.isFetch = false) : heard (xs ++ [x]) = heard xs := by
    rw [heard_append, heard_singleton, hx]
    simp
  cases x with
  | fetch | fetchKeep | fetchOn => exact ha.step_fetch rfl
  | unknown => exact ha.keep (hheard rfl) (by simp) (by simp) rfl rfl rfl rfl
  | release i =>
    cases hi : p.kept[i]? with
    | none =>
      simp only [Player.step, hi]
      exact ha.keep (hheard rfl) (by simp) (by simp) rfl rfl rfl rfl
    | some r =>
      simp only [Player.step, hi]
      exact ha.keep (hheard rfl) (by simp) (by simp) rfl rfl rfl rfl
  | stop =>
    have hstopped : p.script.isStopped = decide (.stop ∈ xs) := by rw [ha.script]
    simp only [Player.step, Player.stop, hstopped]
    by_cases hin : .stop ∈ xs
    · simp only [hin, decide_true, if_true]
      exact ha.keep (hheard rfl) (by simp [hin]) (by simp) rfl rfl rfl rfl
    · simp only [hin, decide_false, Bool.false_eq_true, if_false]
      exact {
        script := by simp [hheard rfl, ha.script]
        hasFetcher := by simp [ha.hasFetcher]
        created := by rw [hheard rfl, ha.created]
        stops := by simp [ha.stops, hin]
        drops := by simp [ha.drops] }
  | dropFetcher =>
    simp only [Player.step, ha.hasFetcher]
    by_cases hin : .dropFetcher ∈ xs
    · simp only [hin, not_true_eq_false, decide_false, Bool.false_eq_true, if_false]
      exact ha.keep (hheard rfl) (by simp) (by simp [hin]) rfl rfl rfl rfl
    · simp only [hin, not_false_eq_true, decide_true, if_true]
      exact {
        script := by simp [hheard rfl, ha.script]
        hasFetcher := by simp
        created := by rw [hheard rfl, ha.created]
        stops := by simp [ha.stops]
        drops := by simp [ha.drops, hin] }

theorem run (ha : After steps tail xs p) (ys : List Step) :
    After steps tail (xs ++ ys) (p.play ys).2 := by
  induction ys generalizing xs p with
  | nil =>
    rw [List.append_nil]
    exact ha
  | cons y rest ih =>
    have hrest := ih (ha.step y)
    rwa [List.append_assoc, List.singleton_append] at hrest

end After

def outcomes (results : List (Result × Ledger)) : List Outcome :=
  results.filterMap fun (r, _) => r.outcome?

theorem play_append (p : Player) (xs ys : List Step) :
    p.play (xs ++ ys) =
      ((p.play xs).1 ++ ((p.play xs).2.play ys).1, ((p.play xs).2.play ys).2) := by
  induction xs generalizing p with
  | nil => rfl
  | cons x rest ih => simp only [List.cons_append, Player.play, ih]

theorem length_play (p : Player) (xs : List Step) : (p.play xs).1.length = xs.length := by
  induction xs generalizing p with
  | nil => rfl
  | cons x rest ih => simp only [Player.play, List.length_cons, ih]

theorem getElem?_play (p : Player) (before after : List Step) (x : Step) :
    (p.play (before ++ x :: after)).1[before.length]? =
      some (((p.play before).2.step x).1, ((p.play before).2.step x).2.ledger) := by
  rw [play_append, ← length_play p before, List.getElem?_append_right (Nat.le_refl _), Nat.sub_self]
  rfl

/-- A fetch leaves what it leaves, and nothing else looks like it. -/
theorem journal_step (p : Player) (x : Step) : (p.step x).2.journal.filter Entry.isOfFetch =
    p.journal.filter Entry.isOfFetch ++ (p.step x).1.outcome?.toList.flatMap Entry.ofFetch := by
  by_cases hx : x.isFetch
  · cases hp : p.hasFetcher with
    | true =>
      obtain ⟨hresult, -, -, hjournal, -⟩ := step_of_isFetch hx hp
      rw [hresult, hjournal, List.filter_append,
        List.filter_eq_self.mpr fun _ => Entry.isOfFetch_of_mem_ofFetch]
      simp [Result.outcome?]
    | false => simp [step_of_absent hx hp, Result.outcome?]
  · cases x with
    | fetch | fetchKeep | fetchOn => exact (hx rfl).elim
    | unknown => simp [step, Result.outcome?]
    | release i =>
      simp only [step]
      split <;> simp [Result.outcome?]
    | stop =>
      simp only [step, stop]
      split <;> simp [Result.outcome?, Entry.isOfFetch]
    | dropFetcher =>
      simp only [step]
      split <;> simp [Result.outcome?, Entry.isOfFetch]

theorem journal_play (p : Player) (xs : List Step) :
    (p.play xs).2.journal.filter Entry.isOfFetch =
      p.journal.filter Entry.isOfFetch ++ (outcomes (p.play xs).1).flatMap Entry.ofFetch := by
  induction xs generalizing p with
  | nil => simp [play, outcomes]
  | cons x rest ih =>
    have houtcomes : outcomes (p.play (x :: rest)).1 =
        (p.step x).1.outcome?.toList ++ outcomes ((p.step x).2.play rest).1 := by
      simp only [outcomes, Player.play, List.filterMap_cons]
      cases (p.step x).1.outcome? <;> rfl
    rw [houtcomes, List.flatMap_append, ← List.append_assoc, ← journal_step]
    exact ih (p.step x).2

theorem after_play (steps : List Script.Step) (tail : Script.Tail) (xs : List Step) :
    After steps tail xs ((scripted steps tail).play xs).2 := by
  have ha := (After.start steps tail).run xs
  rwa [List.nil_append] at ha

/-- What comes of all that can be done with the fixture over a script. -/
structure Plays (steps : List Script.Step) (tail : Script.Tail) (xs : List Step) : Prop where
  /-- Each fetch until the first stop is answered with the next step of the script and of its tail,
  and every fetch since then with the end marker. -/
  answered : ∀ {before x after}, xs = before ++ x :: after → x.isFetch → .dropFetcher ∉ before →
    ∃ l, ((scripted steps tail).play xs).1[before.length]? =
      some (.fetched (answer steps tail before), l)
  absent : ∀ {before x after}, xs = before ++ x :: after → x.isFetch → .dropFetcher ∈ before →
    ∃ l, ((scripted steps tail).play xs).1[before.length]? = some (.absent, l)
  used : ((scripted steps tail).play xs).2.script.steps = steps.drop (heard xs)
  created : ((scripted steps tail).play xs).2.ledger.created =
    ((Script.firstSteps steps tail (heard xs)).filterMap Script.Step.makes?).length
  /-- After a stop no step is used up and no record is made. -/
  stopped : ∀ {before after}, xs = before ++ after → .stop ∈ before →
    ((scripted steps tail).play xs).2.script = ((scripted steps tail).play before).2.script ∧
      ((scripted steps tail).play xs).2.ledger.created =
        ((scripted steps tail).play before).2.ledger.created
  /-- Each fetch is noted, and what it returns unless it panics. -/
  fetches : ((scripted steps tail).play xs).2.journal.filter Entry.isOfFetch =
    (outcomes ((scripted steps tail).play xs).1).flatMap Entry.ofFetch
  stops : ((scripted steps tail).play xs).2.journal.count .stopRequested =
    if .stop ∈ xs then 1 else 0
  drops : ((scripted steps tail).play xs).2.journal.count .fetcherDropped =
    if .dropFetcher ∈ xs then 1 else 0

/-- **A fixture plays back its script**, save that a yield of the greatest id panics. -/
theorem plays (steps : List Script.Step) (tail : Script.Tail) (xs : List Step) :
    Plays steps tail xs where
  answered {before x after} hsplit hx hd := by
    have ha := after_play steps tail before
    have hp : ((scripted steps tail).play before).2.hasFetcher = true := by
      simp [ha.hasFetcher, hd]
    obtain ⟨hresult, -⟩ := step_of_isFetch hx hp
    obtain ⟨hplay, -⟩ := ha.play hx hd
    have hat := getElem?_play (scripted steps tail) before after x
    rw [hresult, hplay, ← hsplit] at hat
    exact ⟨_, hat⟩
  absent {before x after} hsplit hx hd := by
    have ha := after_play steps tail before
    have hp : ((scripted steps tail).play before).2.hasFetcher = false := by
      simp [ha.hasFetcher, hd]
    have hat := getElem?_play (scripted steps tail) before after x
    rw [step_of_absent hx hp, ← hsplit] at hat
    exact ⟨_, hat⟩
  used := by rw [(after_play steps tail xs).script]; rfl
  created := (after_play steps tail xs).created
  stopped {before after} hsplit hstop := by
    have ha := after_play steps tail before
    have ha' := after_play steps tail xs
    have hheard : heard xs = heard before := by rw [hsplit, heard_append, if_pos (.inl hstop)]
    have hstop' : .stop ∈ xs := hsplit ▸ List.mem_append_left after hstop
    constructor
    · simp only [ha'.script, ha.script, hheard, hstop, hstop']
    · rw [ha'.created, ha.created, hheard]
  fetches := journal_play (scripted steps tail) xs
  stops := (after_play steps tail xs).stops
  drops := (after_play steps tail xs).drops

/-- The greatest id has no successor, and a fetch of it makes no record. -/
theorem panicked_of_greatest :
    (scripted [.yield 0xffffffff] .finish).play [.fetch] =
      ([(.fetched (.panicked (.fixed Script.overflowText)), {})],
        { script := { counting := .checked }, journal := [.fetchEnter], probe? := mainThread }) ∧
    ¬ ∃ r l, ((scripted [.yield 0xffffffff] .finish).play [.fetch]).1[0]? =
      some (.fetched (.record r), l) := by
  have heq : (scripted [.yield 0xffffffff] .finish).play [.fetch] =
      ([(.fetched (.panicked (.fixed Script.overflowText)), {})],
        { script := { counting := .checked }, journal := [.fetchEnter],
          probe? := mainThread }) := by decide
  refine ⟨heq, ?_⟩
  rw [heq]
  rintro ⟨r, l, h⟩
  cases h

end Player

end Fixture

end Handoff
