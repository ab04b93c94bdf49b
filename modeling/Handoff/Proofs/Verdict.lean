import Handoff.Proofs.Progress

/-! The completion of a bridge tells how its producer ended, and what it counts is true. -/
namespace Handoff

def panicText : Payload → String
  | .fixed s | .made s => s
  | .other => "unknown panic payload"

/-- What a caller is to learn of the answers to fetches and of the panic of the fetcher's drop. Only
the first answer that is no record counts; `n` records came before. -/
def verdict? (g : UInt32) (panic? : Option Payload) (n : Nat) : List Outcome → Option Completion
  | [] => none
  | .record _ :: rest => verdict? g panic? (n + 1) rest
  | .panicked p :: _ => some (.failed (.producerPanicked (panicText p)))
  | .endMarker :: _ => match panic? with
    | none => some (.finished ⟨n, g⟩)
    | some p => some (.failed (.producerPanicked (panicText p)))
  | .failed report :: _ => match panic? with
    | none => some (.failed (.sourceFailed n report))
    | some p => some (.failed (.producerPanicked (panicText p)))

def Completion.delivered? : Completion → Option Nat
  | finished s => some s.delivered
  | failed (.sourceFailed n _) => some n
  | failed _ => none

theorem panicText_eq (p : Payload) : panicText p = p.message := by
  cases p <;> rfl

theorem verdict?_of_exit? {o : Outcome} {exit : Exit} (ho : o.exit? = some exit) (g : UInt32)
    (panic? : Option Payload) (n : Nat) :
    verdict? g panic? n [o] = some (.ofExit n g (exit.orPanic panic?)) := by
  cases o <;> cases ho <;> cases panic? <;>
    simp [verdict?, Exit.orPanic, Completion.ofExit, panicText_eq]

theorem verdict?_append (g : UInt32) (panic? : Option Payload) (n : Nat) (rs : List Record)
    (os : List Outcome) :
    verdict? g panic? n (rs.map .record ++ os) = verdict? g panic? (n + rs.length) os := by
  induction rs generalizing n with
  | nil => rfl
  | cons r rest ih =>
    simp only [List.map_cons, List.cons_append, verdict?, ih, List.length_cons]
    congr 1
    omega

/-- What a producer was answered until he stands where he does, and the panic he was left with. -/
def Producer.Told (p : Producer) (y : Tally) : Prop :=
  match p.place with
  | .retiring exit =>
    ∃ (rs : List Record) (o : Outcome), y.outcomes = rs.map .record ++ [o] ∧ o.exit? = some exit
  | .marking exit | .releasing exit | .ended exit =>
    ∃ (rs : List Record) (o : Outcome) (left : Exit) (panic? : Option Payload),
      y.outcomes = rs.map .record ++ [o] ∧ o.exit? = some left ∧
      y.retirements = [panic?] ∧ exit = left.orPanic panic?
  | .starting | .fetching | .waiting | .pushing _ | .calling _ | .aborted _ =>
    ∃ rs : List Record, y.outcomes = rs.map .record

namespace Producer

theorem Told.fetched_of_ended {p : Producer} {y : Tally} (hi : p.Told y) {exit : Exit}
    (hp : p.place = .ended exit) (g : UInt32) :
    ∃ panic?, y.retirements = [panic?] ∧
      verdict? g panic? 0 y.outcomes = some (.ofExit y.fetched.length g exit) := by
  simp only [Told, hp] at hi
  obtain ⟨rs, o, left, panic?, ho, he, hr, rfl⟩ := hi
  have hf : y.fetched = rs := by
    cases o <;> simp_all [Tally.fetched, List.filterMap_append, Function.comp_def]
  refine ⟨panic?, hr, ?_⟩
  rw [ho, hf, verdict?_append, verdict?_of_exit? he, Nat.zero_add]

theorem Told.afterFetch {p : Producer} {y : Tally} (o : Outcome)
    (hy : ∃ rs : List Record, y.outcomes = rs.map .record) :
    ({ p with place := .afterFetch o } : Producer).Told
      { y with outcomes := y.outcomes ++ [o] } := by
  obtain ⟨rs, hrs⟩ := hy
  cases o with
  | record r => exact ⟨rs ++ [r], by simp [hrs]⟩
  | endMarker | failed report | panicked payload => exact ⟨rs, _, by rw [hrs], rfl⟩

variable {σ : Type} [Feed σ] {p p' : Producer} {l l' : Link σ}

theorem Told.produce (hi : p.Told (.ofTrace l.trace)) (ht : p.Tidy l) (hs : p.Step l p' l') :
    p'.Told (.ofTrace l'.trace) := by
  cases hs with
  | start hp => simpa [Told, hp] using hi
  | enterWaiting hp hf => simpa [Told, hp] using hi
  | @enterAnswered _ o _ hp hf =>
    simp only [Told, hp] at hi
    simpa using Told.afterFetch (p := p) o (y := { Tally.ofTrace l.trace with
      entries := (Tally.ofTrace l.trace).entries + 1 }) hi
  | @receive _ o _ hp hf =>
    simp only [Told, hp] at hi
    simpa using Told.afterFetch (p := p) o hi
  | pushRefused hp hq | collectFailed hp hq => simpa [Told, hp] using hi
  | push hp hq | collectHandled hp hq => simpa [Told, hp] using hi
  | retire hp hf =>
    have hr := ht.unretired (by simp [hp])
    simp only [Told, hp] at hi
    obtain ⟨rs, o, ho, he⟩ := hi
    exact ⟨rs, o, _, _, by simpa using ho, he, by simp [hr], rfl⟩
  | mark hp => simpa [Told, hp] using hi
  | release hp => simpa [Told, hp] using hi

omit [Feed σ] in
theorem Told.frame (hi : p.Told (.ofTrace l.trace)) (hs : l.Frame l') :
    p.Told (.ofTrace l'.trace) := by
  unfold Told at hi ⊢
  rwa [hs.outcomes, hs.retirements]

@[simp] def Place.isOut : Producer.Place → Bool
  | retiring _ | marking _ | releasing _ | ended _ => true
  | starting | fetching | waiting | pushing _ | calling _ | aborted _ => false

theorem Told.isOut {y : Tally} (hi : p.Told y) {o : Outcome} (ho : o ∈ y.outcomes)
    (hr : o.record? = none) : p.place.isOut := by
  cases hp : p.place with
  | retiring _ | marking _ | releasing _ | ended _ => rfl
  | starting | fetching | waiting | pushing _ | calling _ | aborted _ =>
    simp only [Told, hp] at hi
    obtain ⟨rs, hrs⟩ := hi
    rw [hrs] at ho
    obtain ⟨r, -, rfl⟩ := List.mem_map.mp ho
    cases hr

theorem Step.of_isOut (hs : p.Step l p' l') (hp : p.place.isOut) :
    p'.place.isOut ∧
      (Tally.ofTrace l'.trace).entries = (Tally.ofTrace l.trace).entries := by
  cases hs with
  | retire hp' hf | mark hp' | release hp' => exact ⟨rfl, by simp⟩
  | _ => simp_all

end Producer

variable {σ : Type} [Feed σ]

namespace Bridge

theorem invariant_told (h : Handler) : Invariant h (fun _ => True)
    (fun p _ (l : Link σ) => p.Told (.ofTrace l.trace) ∧ p.Tidy l) where
  produce _ hi hs := ⟨hi.1.produce hi.2 hs, hi.2.produce hs⟩
  consume _ hi _ hs := ⟨hi.1.frame hs.frame, hi.2.frame hs.frame⟩
  aside _ _ hi :=
    ⟨hi.1.frame (Link.aside_outside _ _).frame, hi.2.frame (Link.aside_outside _ _).frame⟩
  lose _ hi _ := hi
  letGo _ hi := hi

theorem invariant_out (h : Handler) (n : Nat) : Invariant h (fun _ => True)
    (fun p _ (l : Link σ) => p.place.isOut ∧ (Tally.ofTrace l.trace).entries = n) where
  produce _ hi hs := ⟨(hs.of_isOut hi.1).1, (hs.of_isOut hi.1).2.trans hi.2⟩
  consume _ hi _ hs := ⟨hi.1, hs.frame.entries.trans hi.2⟩
  aside _ _ hi := ⟨hi.1, by rw [(Link.aside_outside _ _).tally]; exact hi.2⟩
  lose _ hi _ := hi
  letGo _ hi := hi

omit [Feed σ] in
theorem Fresh.told {g : UInt32} {p : Producer} {c : Consumer} {l : Link σ} (hf : Fresh g p c l) :
    p.Told (.ofTrace l.trace) := by
  rw [hf.producer, hf.tally]
  exact ⟨[], rfl⟩

/-- A completion that tells how the producer ended, with the right count. -/
structure Reports (b : Bridge σ) (v : Completion) : Prop where
  verdict : ∃ panic?, (Tally.ofTrace b.link.trace).retirements = [panic?] ∧
    verdict? b.generation panic? 0 (Tally.ofTrace b.link.trace).outcomes = some v
  /-- The count is told in 64 bits, hence exactly as long as it stays below 2 ^ 64. -/
  count : ∀ n, v.delivered? = some n →
    (Tally.ofTrace b.link.trace).fetched.length = n ∧
      (Tally.ofTrace b.link.trace).returned.length = n

omit [Feed σ] in
theorem reports_of_steady {b : Bridge σ} {p : Producer}
    (hi : Steady b.generation p b.consumer b.link) (ht : p.Told (.ofTrace b.link.trace))
    {v : Completion} (hv : b.completion? = some v) : b.Reports v := by
  rcases hi.informed.told v hv with rfl | ⟨⟨⟨exit, hplace, rfl⟩, -⟩, -⟩
  · exact (hi.attended.value_ne hv).elim
  · have haligned := hi.aligned
    simp only [Producer.Aligned, hplace] at haligned
    obtain ⟨-, hy, hn, -⟩ := haligned
    have hf : (Tally.ofTrace b.link.trace).fetched.length = p.delivered := by
      rw [hy.fetched, hy.passed, hn]
    obtain ⟨panic?, hr, hverdict⟩ := ht.fetched_of_ended hplace b.generation
    refine ⟨⟨panic?, hr, hf ▸ hverdict⟩, fun n hc => ?_⟩
    have hd : p.delivered = n := by
      cases exit with
      | endOfStream => exact Option.some.inj hc
      | failed report => exact Option.some.inj hc
      | panicked x => cases hc
    exact ⟨hf.trans hd, hn.trans hd⟩

/-- The task is kept and the handler returns. Then every completion tells the truth, and after the
first answer that is no record there is one once both sides have come to rest, as they do. -/
theorem verdict_of_run (u : Usage σ) (taken : UInt32) (hc : (u.begin taken).failure? = none)
    (hh : u.handler.IsCalm) {labels : List Label} {b : Bridge σ} (hk : .loseConsumer ∉ labels)
    (hr : (u.begin taken).bridge.run? u.handler labels = some b) :
    (∀ v, b.completion? = some v → b.Reports v) ∧
      ((∃ o ∈ (Tally.ofTrace b.link.trace).outcomes, o.record? = none) →
        ∃ limit, ∀ more b', (∀ label ∈ more, label.isOfSides) → b.run? u.handler more = some b' →
          more.length ≤ limit ∧ (b'.advance? u.handler = none →
            b'.consumer.signal.isHeld → b'.completion?.isSome)) := by
  obtain ⟨p₀, hp₀, hf⟩ := u.fresh_begin taken hc
  obtain ⟨p, hp, hi⟩ := (invariant_steady hh _).run (fun l hl => by rintro rfl; exact hk hl) hr
    ⟨p₀, hp₀, hf.steady⟩
  obtain ⟨p', hp', ht, -⟩ := (invariant_told u.handler).run (fun _ _ => trivial) hr
    ⟨p₀, hp₀, hf.told, hf.informed.1⟩
  cases hp.symm.trans hp'
  have hg := (generation_of_run hr).trans (u.generation_begin taken hc)
  refine ⟨fun v hv => reports_of_steady (hg ▸ hi) ht hv, fun ⟨o, ho, hrec⟩ => ?_⟩
  -- past that answer nothing more is fetched, which bounds the steps of both sides
  have hout (more b') (hr' : b.run? u.handler more = some b') :=
    (invariant_out u.handler _).run (fun _ _ => trivial) hr' ⟨p, hp, ht.isOut ho hrec, rfl⟩
  obtain ⟨limit, hlimit⟩ := bounded_of_entries_le (h := u.handler) b.entries b
  refine ⟨limit, fun more b' hl hr' => ⟨?_, fun hrest hheld => ?_⟩⟩
  · obtain ⟨_, -, -, hentries⟩ := hout more b' hr'
    exact hlimit more b' hl hr' (Nat.le_of_eq hentries)
  obtain ⟨q, hq, hi'⟩ := (invariant_steady hh _).run
    (fun l hm => by rintro rfl; exact absurd (hl _ hm) (by simp [Label.isOfSides])) hr' ⟨p, hp, hi⟩
  obtain ⟨q', hq', hplace, -⟩ := hout more b' hr'
  cases hq.symm.trans hq'
  obtain ⟨hpstep, hcstep⟩ := rest_of_advance? hq hi'.served.alive hrest
  rcases hi'.rest hpstep hcstep with ⟨hw, -⟩ | ⟨-, hgone⟩
  · simp [hw] at hplace
  · have ha := hi'.attended
    simp only [Consumer.Attended, hgone] at ha
    exact ha.2.2.2 hheld

/-- After its answer to the stop the run of two records is bound to end, and its end is told. -/
theorem verdict_twoRecords :
    (∃ b, (Usage.twoRecords.begin 0).bridge.run? Usage.twoRecords.handler
        Usage.twoRecordsLabels = some b ∧ b.Reports (.finished ⟨2, 1⟩)) ∧
      ∃ b limit, (Usage.twoRecords.begin 0).bridge.run? Usage.twoRecords.handler
          (Usage.twoRecordsLabels.take 21) = some b ∧
        ∀ more b', (∀ label ∈ more, label.isOfSides) →
          b.run? Usage.twoRecords.handler more = some b' →
          more.length ≤ limit ∧ (b'.advance? Usage.twoRecords.handler = none →
            b'.consumer.signal.isHeld → b'.completion?.isSome) := by
  have hc : (Usage.twoRecords.begin 0).failure? = none := by decide +kernel
  have hv : ((Usage.twoRecords.begin 0).bridge.run? Usage.twoRecords.handler
      Usage.twoRecordsLabels).map completion? = some (some (.finished ⟨2, 1⟩)) := by
    decide +kernel
  have ho : ((Usage.twoRecords.begin 0).bridge.run? Usage.twoRecords.handler
      (Usage.twoRecordsLabels.take 21)).map (fun b => (Tally.ofTrace b.link.trace).outcomes) =
        some [.record ⟨7, 0⟩, .record ⟨8, 1⟩, .endMarker] := by decide +kernel
  constructor
  · obtain ⟨b, hr, hv⟩ := Option.map_eq_some_iff.mp hv
    exact ⟨b, hr, (verdict_of_run _ 0 hc Usage.isCalm_twoRecords (by decide) hr).1 _ hv⟩
  · obtain ⟨b, hr, ho⟩ := Option.map_eq_some_iff.mp ho
    obtain ⟨-, hends⟩ := verdict_of_run _ 0 hc Usage.isCalm_twoRecords (by decide) hr
    obtain ⟨limit, hlimit⟩ := hends ⟨.endMarker, by simp [ho]⟩
    exact ⟨b, limit, hr, hlimit⟩

end Bridge

end Handoff
