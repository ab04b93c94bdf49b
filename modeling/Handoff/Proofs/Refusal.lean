import Handoff.Bridge.Create
import Handoff.Proofs.Tally
import Handoff.Script

/-! The ways in which no bridge comes of a creation, and which of them ask a source that has started
to stop. -/
namespace Handoff

namespace Config

theorem isDigit_of_mem_generation {g : UInt32} {c : Char}
    (hc : c ∈ (toString g.toNat).toList) : c.isDigit := by
  rw [Nat.toString_eq_repr, Nat.toList_repr] at hc
  exact Nat.isDigit_of_mem_toDigits (by omega) (by omega) hc

theorem nul_mem_threadName_iff (c : Config) (generation : UInt32) :
    '\x00' ∈ (c.threadName generation).toList ↔ '\x00' ∈ c.namePrefix.toList := by
  have hmark : '\x00' ∉ generationMark.toList := by decide
  have hdigits : '\x00' ∉ (toString generation.toNat).toList := by
    intro hmem
    have hdigit := isDigit_of_mem_generation hmem
    revert hdigit
    decide
  rw [threadName, String.toList_append, String.toList_append, List.mem_append, List.mem_append,
    or_iff_left hdigits, or_iff_left hmark]

end Config

namespace ThreadRequest

theorem spawnFault?_eq_badName_iff (r : ThreadRequest) (generation : UInt32) :
    r.spawnFault? generation = some .badName ↔ '\x00' ∈ r.namePrefix.toList := by
  unfold spawnFault?
  rw [← r.nul_mem_threadName_iff generation]
  split <;> simp [*]

theorem spawnFault?_eq_refused_iff (r : ThreadRequest) (generation : UInt32) {cause : String} :
    r.spawnFault? generation = some (.refused cause) ↔
      '\x00' ∉ r.namePrefix.toList ∧ r.refusal? = some cause := by
  unfold spawnFault?
  rw [← r.nul_mem_threadName_iff generation]
  split <;> simp [*]

end ThreadRequest

def CreateFailure.asksToStop : CreateFailure → Bool
  | refused (.threadRefused _) => true
  | refused (.sourceRefused _) | refused (.sourceFailed ..) | refused (.producerPanicked _)
  | refused .consumerDropped | panicked _ | outside => false

variable {σ : Type} [Feed σ]

namespace Source

/-- The ways in which a creation fails, and what each makes of the link of the source. -/
inductive Failing (s : Source σ) (config : ThreadRequest) (l : Link σ) :
    CreateFailure → Link σ → Prop where
  | refused {report f rs} (hs : s.fault? = some (.refused report))
      (hf : Feed.retire l.feed = (f, rs)) :
    Failing s config l (.refused (.sourceRefused report)) (l.fed f (Event.releasing rs))
  | panicked {p f rs} (hs : s.fault? = some (.panicked p)) (hf : Feed.retire l.feed = (f, rs)) :
    Failing s config l (.panicked p) (l.fed f (Event.releasing rs))
  | badName (hs : s.fault? = none) (hn : '\x00' ∈ config.namePrefix.toList) :
    Failing s config l (.panicked (.made SpawnFault.nameText)) (Creation.retire l none)
  | retirement {p} (hs : s.fault? = none) (hn : '\x00' ∉ config.namePrefix.toList)
      (hb : config.refusal?.isSome) (hp : Feed.retirePanic? l.feed = some p) :
    Failing s config l (.panicked p) (Creation.retire l (some p))
  | noThread {cause} (hs : s.fault? = none) (hn : '\x00' ∉ config.namePrefix.toList)
      (hb : config.refusal? = some cause) (hp : Feed.retirePanic? l.feed = none) :
    Failing s config l (.refused (.threadRefused cause)) (Creation.retire l none).raise.wake

theorem failing_of_failure (s : Source σ) (config : ThreadRequest) (taken : UInt32)
    (es : List Event) {failure : CreateFailure}
    (hc : (s.create config taken es).failure? = some failure) :
    ∃ l g, s.Failing config (.start s.feed (es ++ [.starting])) failure l ∧
      s.create config taken es = .remains l failure g g := by
  unfold create at hc ⊢
  cases hs : s.fault? with
  | some fault =>
    cases fault with
    | refused report =>
      simp only [hs, Creation.remains, Option.some.injEq] at hc
      subst hc
      exact ⟨_, taken, .refused hs rfl, rfl⟩
    | panicked p =>
      simp only [hs, Creation.remains, Option.some.injEq] at hc
      subst hc
      exact ⟨_, taken, .panicked hs rfl, rfl⟩
  | none =>
    simp only [hs, Creation.spawn] at hc ⊢
    cases hfault : config.spawnFault? (nextGeneration taken) with
    | none => simp [hfault] at hc
    | some fault =>
      simp only [hfault] at hc ⊢
      cases fault with
      | badName =>
        simp only [Creation.remains, Option.some.injEq] at hc
        subst hc
        exact ⟨_, _, .badName hs ((config.spawnFault?_eq_badName_iff _).mp hfault), rfl⟩
      | refused cause =>
        obtain ⟨hn, hb⟩ := (config.spawnFault?_eq_refused_iff _).mp hfault
        unfold Creation.refuse at hc ⊢
        cases hp : Feed.retirePanic? (Link.start s.feed (es ++ [.starting])).feed with
        | some p =>
          simp only [hp, Creation.remains, Option.some.injEq] at hc
          subst hc
          exact ⟨_, _, .retirement hs hn (hb ▸ rfl) hp, rfl⟩
        | none =>
          simp only [hp, Creation.remains, Option.some.injEq] at hc
          subst hc
          exact ⟨_, _, .noThread hs hn hb hp, rfl⟩

section Failing

variable {s : Source σ} {config : ThreadRequest} {l l' : Link σ} {failure : CreateFailure}

/-- The fetching end is dropped in any case, as a fetcher or together with the source. -/
theorem Failing.left (hf : s.Failing config l failure l') :
    l'.queue = l.queue ∧
    l'.feed = (if failure.asksToStop then Feed.stop (Feed.retire l.feed).1
      else (Feed.retire l.feed).1) ∧
    ∃ panic?, l'.trace = l.trace ++ Event.releasing (Feed.retire l.feed).2 ++
      (if s.fault?.isNone then [.fetcherDropped l.liveness panic?] else []) ++
      (if failure.asksToStop then [.stopRequested] else []) := by
  cases hf with
  | refused hs hf | panicked hs hf => simp [CreateFailure.asksToStop, hf, hs]
  | badName hs | retirement hs => simp [CreateFailure.asksToStop, Creation.retire, hs]
  | noThread hs =>
    simp [CreateFailure.asksToStop, Creation.retire, Link.raise, Link.wake, Feed.stop, hs]

theorem Failing.asksToStop_iff (hf : s.Failing config l failure l') (hs : s.fault? = none) :
    failure.asksToStop ↔
      '\x00' ∉ config.namePrefix.toList ∧ Feed.retirePanic? l.feed = none := by
  cases hf with
  | refused hfault | panicked hfault => simp [hs] at hfault
  | badName _ hn => simp [CreateFailure.asksToStop, hn]
  | retirement _ _ _ hp => simp [CreateFailure.asksToStop, hp]
  | noThread _ hn _ hp => simp [CreateFailure.asksToStop, hn, hp]

end Failing

/-- How a creation without a bridge has treated a source that had started. -/
structure Dismisses (s : Source σ) (config : ThreadRequest) (es : List Event)
    (failure : CreateFailure) (c : Creation σ) : Prop where
  /-- Its fetcher is dropped once; a stop is requested if the creation returns its failure, -/
  trace : ∃ rest, c.bridge.link.trace = es ++ .starting :: rest ∧
    (Tally.ofTrace rest).retirements.length = 1 ∧ (.stopRequested ∈ rest ↔ failure.asksToStop)
  feed : c.bridge.link.feed = if failure.asksToStop then Feed.stop (Feed.retire s.feed).1
    else (Feed.retire s.feed).1
  /-- and it returns it unless it unwinds over the thread's name or over the end of the fetcher. -/
  asksToStop : failure.asksToStop ↔
    '\x00' ∉ config.namePrefix.toList ∧ Feed.retirePanic? s.feed = none

/-- A source that has started is asked to stop where its thread is refused, and only there: where
the creation panics it is left as it is. -/
theorem dismisses_of_failure (s : Source σ) (hs : s.fault? = none) (config : ThreadRequest)
    (taken : UInt32) (es : List Event) {failure : CreateFailure}
    (hc : (s.create config taken es).failure? = some failure) :
    s.Dismisses config es failure (s.create config taken es) := by
  obtain ⟨l, g, hf, hremains⟩ := s.failing_of_failure config taken es hc
  obtain ⟨-, hfeed, panic?, htrace⟩ := hf.left
  rw [hremains]
  refine ⟨⟨Event.releasing (Feed.retire s.feed).2 ++ .fetcherDropped .running panic? ::
    (if failure.asksToStop then [.stopRequested] else []), ?_, ?_, ?_⟩, hfeed, hf.asksToStop_iff hs⟩
  · have hstart : (Creation.remains l failure g g).bridge.link.trace = l.trace := rfl
    rw [hstart, htrace]
    simp [hs, Link.start]
  · cases failure.asksToStop <;> simp [Tally.ofTrace]
  · cases failure.asksToStop <;> simp [Event.releasing]

def threeYields : Source Script := { feed := { steps := [.yield 0, .yield 1, .yield 2] } }

/-- A thread with an endless stack is refused. -/
theorem dismisses_threeYields :
    (threeYields.create { stackSize := some Config.stackLimit } 0 []).failure? =
      some (.refused (.threadRefused SpawnFault.refusalText)) ∧
    (threeYields.create { stackSize := some Config.stackLimit } 0 []).bridge.link.feed.isStopped ∧
    threeYields.Dismisses { stackSize := some Config.stackLimit } []
      (.refused (.threadRefused SpawnFault.refusalText))
      (threeYields.create { stackSize := some Config.stackLimit } 0 []) := by
  have hc : (threeYields.create { stackSize := some Config.stackLimit } 0 []).failure? =
      some (.refused (.threadRefused SpawnFault.refusalText)) := by decide +kernel
  exact ⟨hc, by decide +kernel, dismisses_of_failure threeYields rfl _ 0 [] hc⟩

/-- The system may refuse any request. -/
example : (threeYields.create { refusal? := some "no more threads" } 0 []).failure? =
    some (.refused (.threadRefused "no more threads")) := by
  decide +kernel

/-- With a NUL in its prefix the creation unwinds, and the source that has started never learns that
it has no reader. -/
theorem not_stopped_of_nul :
    (threeYields.create { namePrefix := "a\x00b" } 0 []).failure? =
      some (.panicked (.made SpawnFault.nameText)) ∧
    (threeYields.create { namePrefix := "a\x00b" } 0 []).bridge.link.trace =
      [.starting, .fetcherDropped .running none] ∧
    (threeYields.create { namePrefix := "a\x00b" } 0 []).bridge.link.feed.isStopped = false := by
  decide +kernel

end Source

end Handoff
