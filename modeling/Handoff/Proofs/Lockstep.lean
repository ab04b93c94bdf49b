import Handoff.Proofs.Runs
import Handoff.Script

/-! Records are handled in lockstep: one at a time, once each, in the order in which they were
fetched, and before the next fetch. -/
namespace Handoff

@[simp] def Consumer.Place.ticket? : Consumer.Place → Option Nat
  | handling call _ _ => some call.ticket
  | returning ticket | unwinding ticket => some ticket
  | fresh | receiving | awaiting | joining _ | resolving _ | leaving _ | gone => none

namespace Tally

/-- Every record that was fetched has been handled. -/
structure Settled (y : Tally) : Prop where
  fetched : y.fetched = y.passed
  passed : y.passed = y.returned

structure Pending (y : Tally) (r : Record) : Prop where
  fetched : y.fetched = y.passed ++ [r]
  passed : y.passed = y.returned

/-- One record was passed to the handler and not returned from. -/
structure Open (y : Tally) (r : Record) : Prop where
  fetched : y.fetched = y.passed
  passed : y.passed = y.returned ++ [r]

theorem Pending.pass {y : Tally} {r : Record} (hy : y.Pending r) :
    ({ y with passed := y.passed ++ [r] } : Tally).Open r :=
  ⟨hy.fetched, congrArg (· ++ [r]) hy.passed⟩

theorem Open.return {y : Tally} {r : Record} (hy : y.Open r) :
    ({ y with returned := y.returned ++ [r] } : Tally).Settled :=
  ⟨hy.fetched, hy.passed⟩

/-- The pace of a bridge, whatever happens to it. -/
structure Lockstep (y : Tally) (q : CallQueue) : Prop where
  passed_prefix : y.passed <+: y.fetched
  returned_prefix : y.returned <+: y.passed
  /-- No record is handled more often than it was fetched. -/
  count_le : ∀ r, y.passed.count r ≤ y.fetched.count r
  nodup : y.fetched.Nodup → y.passed.Nodup
  ahead : y.fetched.length ≤ y.passed.length + 1
  calls : q.calls.length ≤ 1
  entries : y.entries ≤ y.returned.length + 1

end Tally

structure Idle (c : Consumer.Place) (q : CallQueue) : Prop where
  ticket : c.ticket? = none
  calls : q.calls = []
  answers : q.answers = []

/-- Where the call under a ticket is while its sender waits; `n` records were delivered before. -/
inductive Calling (c : Consumer.Place) (q : CallQueue) (y : Tally) (ticket n : Nat) : Prop where
  | queued {r} (hc : c.ticket? = none) (hq : q.calls = [⟨ticket, r⟩]) (ha : q.answers = [])
      (hy : y.Pending r) (hn : y.returned.length = n)
  | taken {r isHeld acts} (hc : c = .handling ⟨ticket, r⟩ isHeld acts) (hq : q.calls = [])
      (ha : q.answers = []) (hy : y.Open r) (hn : y.returned.length = n)
  | returning (hc : c = .returning ticket) (hq : q.calls = []) (ha : q.answers = [])
      (hy : y.Settled) (hn : y.returned.length = n + 1)
  | unwinding {r} (hc : c = .unwinding ticket) (hq : q.calls = []) (ha : q.answers = [])
      (hy : y.Open r) (hn : y.returned.length = n)
  | handled (hc : c.ticket? = none) (hq : q.calls = []) (ha : q.answers = [(ticket, .handled)])
      (hy : y.Settled) (hn : y.returned.length = n + 1)
  | failed {r e} (hc : c.ticket? = none) (hq : q.calls = [])
      (ha : q.answers = [(ticket, .failed e)]) (hy : y.Pending r ∨ y.Open r)
      (hn : y.returned.length = n)

theorem Calling.collect {c : Consumer.Place} {q q' : CallQueue} {y : Tally} {ticket n : Nat}
    {a : Answer} (hi : Calling c q y ticket n) (hq : q.collect? ticket = some (a, q')) :
    c.ticket? = none ∧ q.calls = [] ∧ q' = { q with answers := [] } ∧
      (a = .handled ∧ y.Settled ∧ y.returned.length = n + 1 ∨
        ∃ e r, a = .failed e ∧ (y.Pending r ∨ y.Open r) ∧ y.returned.length = n) := by
  cases hi with
  | handled hc hcalls ha hy hn =>
    rw [CallQueue.collect?_of_answers_eq ha] at hq
    cases hq
    exact ⟨hc, hcalls, rfl, .inl ⟨rfl, hy, hn⟩⟩
  | failed hc hcalls ha hy hn =>
    rw [CallQueue.collect?_of_answers_eq ha] at hq
    cases hq
    exact ⟨hc, hcalls, rfl, .inr ⟨_, _, rfl, hy, hn⟩⟩
  | queued _ _ ha | taken _ _ ha | returning _ _ ha | unwinding _ _ ha =>
    simp [CallQueue.collect?_of_answers_eq_nil ha] at hq

/-- Where the records are, by the place of the producer. -/
def Producer.Aligned (p : Producer) (c : Consumer.Place) (q : CallQueue) (y : Tally) : Prop :=
  match p.place with
  | .starting | .fetching =>
    Idle c q ∧ y.Settled ∧ y.returned.length = p.delivered ∧ y.entries = p.delivered
  | .waiting | .retiring _ | .marking _ | .releasing _ | .ended _ =>
    Idle c q ∧ y.Settled ∧ y.returned.length = p.delivered ∧ y.entries = p.delivered + 1
  | .pushing r =>
    Idle c q ∧ y.Pending r ∧ y.returned.length = p.delivered ∧ y.entries = p.delivered + 1
  | .calling ticket => Calling c q y ticket p.delivered ∧ y.entries = p.delivered + 1
  | .aborted _ =>
    q.calls = [] ∧ (∃ r, y.Pending r ∨ y.Open r) ∧ y.returned.length = p.delivered ∧
      y.entries = p.delivered + 1

namespace Producer

variable {σ : Type} [Feed σ] {p p' : Producer} {l l' : Link σ}

theorem Aligned.afterFetch {c : Consumer.Place} {q : CallQueue} {y : Tally} (o : Outcome)
    (hq : Idle c q) (hy : y.Settled) (hn : y.returned.length = p.delivered)
    (he : y.entries = p.delivered + 1) :
    ({ p with place := .afterFetch o } : Producer).Aligned c q
      { y with outcomes := y.outcomes ++ [o] } := by
  cases o with
  | record r => exact ⟨hq, ⟨by simp [Tally.fetched, ← hy.fetched], hy.passed⟩, hn, he⟩
  | endMarker | failed report | panicked payload =>
    exact ⟨hq, ⟨by simp [Tally.fetched, ← hy.fetched], hy.passed⟩, hn, he⟩

theorem Aligned.produce {c : Consumer.Place} (hi : p.Aligned c l.queue (.ofTrace l.trace))
    (hs : p.Step l p' l') : p'.Aligned c l'.queue (.ofTrace l'.trace) := by
  cases hs with
  | start hp =>
    simp only [Aligned, hp] at hi
    simpa [Aligned] using hi
  | enterWaiting hp hf =>
    simp only [Aligned, hp] at hi
    obtain ⟨hq, hy, hn, he⟩ := hi
    simpa [Aligned, he, hn, hq] using ⟨hy.fetched, hy.passed⟩
  | enterAnswered hp hf =>
    simp only [Aligned, hp] at hi
    obtain ⟨hq, hy, hn, he⟩ := hi
    let y : Tally := { Tally.ofTrace l.trace with entries := (Tally.ofTrace l.trace).entries + 1 }
    have hy' : y.Settled := ⟨hy.fetched, hy.passed⟩
    simpa using Aligned.afterFetch _ hq hy' hn (congrArg (· + 1) he)
  | receive hp hf =>
    simp only [Aligned, hp] at hi
    obtain ⟨hq, hy, hn, he⟩ := hi
    simpa using Aligned.afterFetch _ hq hy hn he
  | pushRefused hp hq =>
    simp only [Aligned, hp] at hi
    obtain ⟨hq, hy, hn, he⟩ := hi
    simpa [Aligned, he, hn, hq.calls] using ⟨_, .inl hy⟩
  | push hp hq =>
    simp only [Aligned, hp] at hi
    obtain ⟨hi, hy, hn, he⟩ := hi
    cases CallQueue.push?_eq_some hq
    exact ⟨.queued hi.ticket (by simp [hi.calls]) hi.answers hy hn, he⟩
  | collectHandled hp hq =>
    simp only [Aligned, hp] at hi
    obtain ⟨hc, he⟩ := hi
    obtain ⟨hticket, hcalls, rfl, ⟨-, hy, hn⟩ | ⟨_, _, hf, -⟩⟩ := hc.collect hq
    · exact ⟨⟨hticket, hcalls, rfl⟩, hy, hn, he⟩
    · cases hf
  | collectFailed hp hq =>
    simp only [Aligned, hp] at hi
    obtain ⟨hc, he⟩ := hi
    obtain ⟨-, hcalls, rfl, ⟨hf, -⟩ | ⟨_, r, -, hy, hn⟩⟩ := hc.collect hq
    · cases hf
    · simpa [Aligned, he, hn, hcalls] using ⟨r, hy⟩
  | retire hp hf =>
    simp only [Aligned, hp] at hi
    obtain ⟨hq, hy, hn, he⟩ := hi
    simpa [Aligned, he, hn, hq] using ⟨hy.fetched, hy.passed⟩
  | mark hp =>
    simp only [Aligned, hp] at hi
    simpa [Aligned] using hi
  | release hp =>
    simp only [Aligned, hp] at hi
    obtain ⟨hq, hi⟩ := hi
    exact ⟨⟨hq.ticket, hq.calls, hq.answers⟩, by simpa using hi⟩

end Producer

variable {σ : Type} [Feed σ] {h : Handler} {exit? : Option (Exit × Nat)} {c c' : Consumer}
  {l l' : Link σ}

/-- A consumer that holds no call takes one, or it has no part in the records' ways, unless it drops
its end of the queue. -/
theorem Consumer.Step.of_ticket?_eq_none (hs : c.Step h exit? l c' l')
    (hc : c.place.ticket? = none) :
    (∃ call q isHeld acts, l.queue.take? = some (call, q) ∧
        c'.place = .handling call isHeld acts ∧ l'.queue = q ∧
        l'.trace = l.trace ++ [.handling call.record]) ∨
      c'.place.ticket? = none ∧ (l'.queue = l.queue ∨ l'.queue = l.queue.dropReceiver.1) ∧
        Tally.ofTrace l'.trace = Tally.ofTrace l.trace := by
  cases hs with
  | take hp hq => exact .inl ⟨_, _, _, _, hq, rfl, rfl, by simp⟩
  | @drop part _ hp =>
    refine .inr ⟨rfl, ?_⟩
    cases part with
    | context => exact ⟨.inl rfl, rfl⟩
    | handler => exact ⟨.inl rfl, by simp [dropPart]⟩
    | receiver => exact ⟨.inr rfl, by simp [dropPart]⟩
  | act hp | finish hp | answer hp | unwind hp => simp [hp] at hc
  | judge hp => exact .inr ⟨rfl, .inl rfl, by simp⟩
  | begin hp | drained hp | join hp | giveUp hp | resolve hp | leave hp =>
    exact .inr ⟨rfl, .inl rfl, rfl⟩

theorem Idle.consume (hi : Idle c.place l.queue) (hs : c.Step h exit? l c' l') :
    Idle c'.place l'.queue ∧ Tally.ofTrace l'.trace = Tally.ofTrace l.trace := by
  obtain ⟨hc, hcalls, ha⟩ := hi
  rcases hs.of_ticket?_eq_none hc with ⟨_, _, _, _, ht, -⟩ | ⟨hc', hq | hq, ht⟩
  · simp [CallQueue.take?_eq_none_iff.mpr hcalls] at ht
  · exact ⟨⟨hc', hq ▸ hcalls, hq ▸ ha⟩, ht⟩
  · rw [hq, CallQueue.dropReceiver_of_calls_eq_nil hcalls]
    exact ⟨⟨hc', hcalls, ha⟩, ht⟩

theorem Calling.consume {ticket n : Nat} (hi : Calling c.place l.queue (.ofTrace l.trace) ticket n)
    (hs : c.Step h exit? l c' l') :
    Calling c'.place l'.queue (.ofTrace l'.trace) ticket n ∧
      (Tally.ofTrace l'.trace).entries = (Tally.ofTrace l.trace).entries := by
  cases hi with
  | queued hc hq ha hy hn =>
    rcases hs.of_ticket?_eq_none hc with ⟨_, _, _, _, ht, hc', hq', ht'⟩ | ⟨hc', hq' | hq', ht⟩
    · obtain ⟨rest, hcalls, rfl⟩ := CallQueue.take?_eq_some ht
      cases hq.symm.trans hcalls
      rw [hq', ht', Tally.ofTrace_append]
      exact ⟨.taken hc' rfl ha hy.pass hn, rfl⟩
    · rw [hq', ht]
      exact ⟨.queued hc' hq ha hy hn, rfl⟩
    · -- the receiver goes with the call in it, which is aborted
      rw [hq', ht]
      have ha' : l.queue.dropReceiver.1.answers = [(ticket, .failed .handlerAborted)] := by
        simp [CallQueue.dropReceiver, hq, ha]
      exact ⟨.failed hc' rfl ha' (.inl hy) hn, rfl⟩
  | taken hc hq ha hy hn =>
    cases hs with
    | act hp =>
      cases hc.symm.trans hp
      rw [(c.act_aside l _ _ _ _).tally, (c.act_aside l _ _ _ _).queue]
      rcases c.act_place l _ _ _ _ with ⟨_, _, hc'⟩ | hc'
      · exact ⟨.taken hc' hq ha hy hn, rfl⟩
      · exact ⟨.unwinding hc' hq ha hy hn, rfl⟩
    | finish hp =>
      cases hc.symm.trans hp
      simp only [Link.trace_note, Tally.ofTrace_append, List.foldl_cons,
        Consumer.foldl_add_leftover]
      exact ⟨.returning rfl hq ha hy.return (by simp [hn]), rfl⟩
    | _ => simp_all
  | returning hc hq ha hy hn =>
    cases hs with
    | answer hp =>
      cases hc.symm.trans hp
      exact ⟨.handled rfl hq (by simp [CallQueue.answer, ha]) hy hn, rfl⟩
    | _ => simp_all
  | unwinding hc hq ha hy hn =>
    cases hs with
    | unwind hp =>
      cases hc.symm.trans hp
      have ha' : (l.queue.answer ticket (.failed .handlerAborted)).answers =
          [(ticket, .failed .handlerAborted)] := by
        rw [CallQueue.answer, ha, List.nil_append]
      exact ⟨.failed rfl hq ha' (.inr hy) hn, rfl⟩
    | _ => simp_all
  | handled hc hq ha hy hn =>
    rcases hs.of_ticket?_eq_none hc with ⟨_, _, _, _, ht, -⟩ | ⟨hc', hq' | hq', ht⟩
    · simp [CallQueue.take?_eq_none_iff.mpr hq] at ht
    · rw [hq', ht]
      exact ⟨.handled hc' hq ha hy hn, rfl⟩
    · rw [hq', ht, CallQueue.dropReceiver_of_calls_eq_nil hq]
      exact ⟨.handled hc' hq ha hy hn, rfl⟩
  | failed hc hq ha hy hn =>
    rcases hs.of_ticket?_eq_none hc with ⟨_, _, _, _, ht, -⟩ | ⟨hc', hq' | hq', ht⟩
    · simp [CallQueue.take?_eq_none_iff.mpr hq] at ht
    · rw [hq', ht]
      exact ⟨.failed hc' hq ha hy hn, rfl⟩
    · rw [hq', ht, CallQueue.dropReceiver_of_calls_eq_nil hq]
      exact ⟨.failed hc' hq ha hy hn, rfl⟩

theorem Consumer.ticket?_of_lose? (hl : c.lose? = some c') :
    c.place.ticket? = none ∧ c'.place.ticket? = none := by
  obtain ⟨hc, parts, rfl⟩ := lose?_eq_some hl
  refine ⟨?_, rfl⟩
  rcases hc with hp | hp | hp <;> rw [hp] <;> rfl

theorem Calling.lose {q : CallQueue} {y : Tally} {ticket n : Nat}
    (hi : Calling c.place q y ticket n) (hl : c.lose? = some c') :
    Calling c'.place q y ticket n := by
  obtain ⟨hc, hc'⟩ := Consumer.ticket?_of_lose? hl
  cases hi with
  | queued _ hq ha hy hn => exact .queued hc' hq ha hy hn
  | handled _ hq ha hy hn => exact .handled hc' hq ha hy hn
  | failed _ hq ha hy hn => exact .failed hc' hq ha hy hn
  | taken hp | returning hp | unwinding hp => simp [hp] at hc

namespace Producer

variable {p : Producer}

theorem Aligned.consume (hi : p.Aligned c.place l.queue (.ofTrace l.trace))
    (hp : p.abort? = none) (hs : c.Step h exit? l c' l') :
    p.Aligned c'.place l'.queue (.ofTrace l'.trace) := by
  cases hplace : p.place with
  | calling ticket =>
    simp only [Aligned, hplace] at hi ⊢
    obtain ⟨hc, he⟩ := hi.1.consume hs
    exact ⟨hc, he.trans hi.2⟩
  | aborted e => simp [abort?, hplace] at hp
  | starting | fetching | waiting | pushing _ | retiring _ | marking _ | releasing _ | ended _ =>
    simp only [Aligned, hplace] at hi ⊢
    obtain ⟨hq, ht⟩ := hi.1.consume hs
    rw [ht]
    exact ⟨hq, hi.2⟩

theorem Aligned.lose {q : CallQueue} {y : Tally} (hi : p.Aligned c.place q y)
    (hl : c.lose? = some c') : p.Aligned c'.place q y := by
  cases hplace : p.place with
  | calling ticket =>
    simp only [Aligned, hplace] at hi ⊢
    exact ⟨hi.1.lose hl, hi.2⟩
  | aborted e => simpa only [Aligned, hplace] using hi
  | starting | fetching | waiting | pushing _ | retiring _ | marking _ | releasing _ | ended _ =>
    simp only [Aligned, hplace] at hi ⊢
    exact ⟨⟨(Consumer.ticket?_of_lose? hl).2, hi.1.calls, hi.1.answers⟩, hi.2⟩

end Producer

theorem Bridge.invariant_aligned (h : Handler) :
    Invariant h (fun _ => True)
      (fun p c (l : Link σ) => p.Aligned c.place l.queue (.ofTrace l.trace)) where
  produce _ hi hs := hi.produce hs
  consume _ hi hp hs := hi.consume hp hs
  aside _ _ hi := by rwa [(Link.aside_outside _ _).queue, (Link.aside_outside _ _).tally]
  lose _ hi hs := hi.lose hs
  letGo _ hi := hi

namespace Tally

variable {y : Tally} {q : CallQueue} {r : Record}

theorem lockstep_of_prefix (hp : y.passed <+: y.fetched) (hr : y.returned <+: y.passed)
    (ha : y.fetched.length ≤ y.passed.length + 1) (hq : q.calls.length ≤ 1)
    (he : y.entries ≤ y.returned.length + 1) : y.Lockstep q where
  passed_prefix := hp
  returned_prefix := hr
  count_le r := hp.sublist.count_le r
  nodup hf := hp.sublist.nodup hf
  ahead := ha
  calls := hq
  entries := he

theorem Settled.lockstep (hy : y.Settled) (hq : q.calls.length ≤ 1)
    (he : y.entries ≤ y.returned.length + 1) : y.Lockstep q :=
  lockstep_of_prefix (by simp [hy.fetched]) (by simp [hy.passed]) (by simp [hy.fetched]) hq he

theorem Pending.lockstep (hy : y.Pending r) (hq : q.calls.length ≤ 1)
    (he : y.entries ≤ y.returned.length + 1) : y.Lockstep q :=
  lockstep_of_prefix (by simp [hy.fetched]) (by simp [hy.passed]) (by simp [hy.fetched]) hq he

theorem Open.lockstep (hy : y.Open r) (hq : q.calls.length ≤ 1)
    (he : y.entries ≤ y.returned.length + 1) : y.Lockstep q :=
  lockstep_of_prefix (by simp [hy.fetched]) (by simp [hy.passed]) (by simp [hy.fetched]) hq he

end Tally

theorem Calling.lockstep {cp : Consumer.Place} {q : CallQueue} {y : Tally} {ticket n : Nat}
    (hi : Calling cp q y ticket n) (he : y.entries = n + 1) : y.Lockstep q := by
  cases hi with
  | queued _ hq _ hy hn => exact hy.lockstep (by simp [hq]) (by omega)
  | taken _ hq _ hy hn | unwinding _ hq _ hy hn => exact hy.lockstep (by simp [hq]) (by omega)
  | returning _ hq _ hy hn | handled _ hq _ hy hn => exact hy.lockstep (by simp [hq]) (by omega)
  | failed _ hq _ hy hn =>
    exact hy.elim (·.lockstep (by simp [hq]) (by omega)) (·.lockstep (by simp [hq]) (by omega))

theorem Producer.Aligned.lockstep {p : Producer} {cp : Consumer.Place} {q : CallQueue} {y : Tally}
    (hi : p.Aligned cp q y) : y.Lockstep q := by
  cases hplace : p.place with
  | calling ticket =>
    simp only [Aligned, hplace] at hi
    exact hi.1.lockstep hi.2
  | aborted e =>
    simp only [Aligned, hplace] at hi
    obtain ⟨hq, ⟨r, hy⟩, hn, he⟩ := hi
    exact hy.elim (·.lockstep (by simp [hq]) (by omega)) (·.lockstep (by simp [hq]) (by omega))
  | starting | fetching | waiting | pushing _ | retiring _ | marking _ | releasing _ | ended _ =>
    simp only [Aligned, hplace] at hi
    obtain ⟨hq, hy, hn, he⟩ := hi
    exact hy.lockstep (by simp [hq.calls]) (by omega)

namespace Bridge

omit [Feed σ] in
theorem Fresh.aligned {g : UInt32} {p : Producer} (hf : Fresh g p c l) :
    p.Aligned c.place l.queue (.ofTrace l.trace) := by
  rw [hf.producer, hf.place, hf.queue, hf.tally]
  exact ⟨⟨rfl, rfl, rfl⟩, ⟨rfl, rfl⟩, rfl, rfl⟩

/-- In every state that a bridge comes to, the records were handled in lockstep. -/
theorem lockstep_of_run (u : Usage σ) (taken : UInt32) (hc : (u.begin taken).failure? = none)
    {labels : List Label} {b : Bridge σ}
    (hr : (u.begin taken).bridge.run? u.handler labels = some b) :
    (Tally.ofTrace b.link.trace).Lockstep b.link.queue := by
  obtain ⟨p, hp, hf⟩ := u.fresh_begin taken hc
  obtain ⟨p', -, hi⟩ :=
    (invariant_aligned u.handler).run (fun _ _ => trivial) hr ⟨p, hp, hf.aligned⟩
  exact hi.lockstep

end Bridge

/-- Two records and as many more as are asked for, until the second one makes the handler stop. -/
def Usage.twoRecords : Usage Script where
  source := { feed := { steps := [.yield 7, .yield 8], tail := .yieldUntilStopped } }
  style := .script
  handler n _ := if n = 0 then [.keep] else [.stop]

def Usage.twoRecordsLabels : List Bridge.Label :=
  .consume :: (List.replicate 4 .produce ++ List.replicate 4 .consume ++
    List.replicate 4 .produce ++ List.replicate 5 .consume ++
    List.replicate 6 .produce ++ List.replicate 7 .consume)

theorem Bridge.lockstep_twoRecords :
    ∃ b, (Usage.twoRecords.begin 0).bridge.run? Usage.twoRecords.handler
        (Usage.twoRecordsLabels.take 14) = some b ∧
      (Tally.ofTrace b.link.trace).passed = [⟨7, 0⟩, ⟨8, 1⟩] ∧
      (Tally.ofTrace b.link.trace).Lockstep b.link.queue := by
  have hc : (Usage.twoRecords.begin 0).failure? = none := by decide +kernel
  have hp : ((Usage.twoRecords.begin 0).bridge.run? Usage.twoRecords.handler
      (Usage.twoRecordsLabels.take 14)).map (fun b => (Tally.ofTrace b.link.trace).passed) =
        some [⟨7, 0⟩, ⟨8, 1⟩] := by decide +kernel
  obtain ⟨b, hr, hp⟩ := Option.map_eq_some_iff.mp hp
  exact ⟨b, hr, hp, lockstep_of_run _ 0 hc hr⟩

end Handoff
