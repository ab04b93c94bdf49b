import Handoff.Proofs.Movement
import Mathlib.Algebra.GroupWithZero.Nat

/-! A call reports what happened to its record, as soon as it can and once for all. -/
namespace Handoff.Exchange

variable {m m' : Exchange}

theorem exists_hand {ticket : Nat} {r : Record} {stage : Stage}
    (hs : (ticket, .held r stage) ∈ m.sites) :
    ∃ h ∈ m.hands, h.call = ⟨ticket, r⟩ ∧ h.stage = stage := by
  rcases List.mem_append.mp hs with hs | hs
  · rcases List.mem_append.mp hs with hs | hs
    · obtain ⟨c, -, heq⟩ := List.mem_map.mp hs
      simp at heq
    · obtain ⟨⟨call, stage'⟩, hh, heq⟩ := List.mem_map.mp hs
      cases heq
      exact ⟨_, hh, rfl, rfl⟩
  · obtain ⟨x, -, heq⟩ := List.mem_map.mp hs
    simp at heq

theorem collect?_ne_none {ticket : Nat} {a : Answer} (hs : (ticket, .answered a) ∈ m.sites) :
    m.queue.collect? ticket ≠ none := by
  have ha : (ticket, a) ∈ m.queue.answers := by
    rcases List.mem_append.mp hs with hs | hs
    · rcases List.mem_append.mp hs with hs | hs <;> obtain ⟨x, -, heq⟩ := List.mem_map.mp hs <;>
        simp at heq
    · obtain ⟨x, hx, heq⟩ := List.mem_map.mp hs
      cases heq
      exact hx
  unfold CallQueue.collect?
  cases hf : m.queue.answers.find? (·.1 == ticket) with
  | some x => simp
  | none =>
    have hnot := List.find?_eq_none.mp hf _ ha
    simp at hnot

/-- What a call tells is what happened to its record. -/
structure Tells (m : Exchange) (c : Caller) : Prop where
  handled : c.answer? = some .handled ↔ .handled c.record ∈ m.notes
  gone : c.answer? = some (.failed .consumerGone) ↔ IsLate c.record m.notes
  aborted : c.answer? = some (.failed .handlerAborted) ↔ ¬ IsLate c.record m.notes ∧
    (.discarded c.record ∈ m.notes ∨ .panicked c.record ∈ m.notes)

namespace Sound

theorem mem_notes (hi : m.Sound) {i : Nat} {c : Caller} (hc : m.callers[i]? = some c) {e : Note}
    (he : e.serial? = some c.record.serial) : e ∈ m.notes ↔ e ∈ story i m.notes := by
  rw [hi.serial i c hc] at he
  exact (mem_story he).symm

theorem tells_of_returned (hi : m.Sound) {i : Nat} {c : Caller} (hc : m.callers[i]? = some c)
    {a : Answer} (hp : c.place = .returned a) : m.Tells c := by
  have hanswer : c.answer? = some a := by rw [Caller.answer?, hp]
  have hrefused := hi.refused i c hc
  have htold := hi.told i c hc
  simp only [Caller.Told, hp] at htold
  obtain ⟨before, hstory, hends⟩ := htold
  have hmem {e : Note} (he : e.serial? = some c.record.serial)
      (hne : ∀ a, e ≠ .returned c.record a) : e ∈ m.notes ↔ e ∈ before := by
    rw [hi.mem_notes hc he, hstory, List.mem_append, List.mem_singleton, or_iff_left (hne a)]
  simp only [Caller.IsRefused, hp] at hrefused
  refine ⟨?_, ?_, ?_⟩
  · rw [hanswer, hmem rfl (by simp)]
    cases hends with
    | handled hes | panicked hes => rcases hes with rfl | rfl <;> simp
    | discarded | refused => simp
  · rw [hanswer, ← hrefused, Option.some.injEq]
  · rw [hanswer, ← hrefused, hmem rfl (by simp), hmem rfl (by simp)]
    cases hends with
    | handled hes | panicked hes => rcases hes with rfl | rfl <;> simp
    | discarded | refused => simp

theorem tells_of_waiting (hi : m.Sound) {i : Nat} {c : Caller} (hc : m.callers[i]? = some c)
    {ticket : Nat} (hp : c.place = .blocked ticket)
    (hstory : story i m.notes = [.called c.record] ∨
      story i m.notes = [.called c.record, .handling c.record]) : m.Tells c := by
  have hanswer : c.answer? = none := by rw [Caller.answer?, hp]
  have hrefused := hi.refused i c hc
  simp only [Caller.IsRefused, hp, false_iff] at hrefused
  refine ⟨?_, ?_, ?_⟩
  · rw [hanswer, hi.mem_notes hc rfl]
    rcases hstory with h | h <;> simp [h]
  · rw [hanswer]
    exact iff_of_false (by simp) hrefused
  · rw [hanswer, hi.mem_notes hc rfl, hi.mem_notes hc rfl]
    rcases hstory with h | h <;> simp [h]

theorem tells_of_rest (hi : m.Sound) (hrest : ∀ label : Label, label.isInner → m.step? label = none)
    {i : Nat} {c : Caller} (hc : m.callers[i]? = some c) : m.Tells c := by
  have htold := hi.told i c hc
  have hcaller : c.step? m.queue = none := by
    have hstep := hrest (.caller i) rfl
    simp only [step?, hc, Option.bind_eq_bind, Option.bind_some] at hstep
    cases hs : c.step? m.queue with
    | none => rfl
    | some next => simp [hs] at hstep
  have hhand {h : Hand} (hh : h ∈ m.hands) (deed : Hand.Deed)
      (hdeed : Label.isInner (.hand h deed)) : h.step? deed = none := by
    have hstep := hrest (.hand h deed) hdeed
    simpa [step?, hh] using hstep
  cases hp : c.place with
  | rejected fields =>
    rcases fields with _ | ⟨_ | _, rest⟩ <;> simp [Caller.step?, hp] at hcaller
  | returned a => exact hi.tells_of_returned hc hp
  | blocked ticket =>
    simp only [Caller.Told, hp] at htold
    obtain ⟨site, hsite, htells⟩ := htold
    cases site with
    | queued r => exact hi.tells_of_waiting hc hp (.inl htells.2)
    | answered a =>
      simp only [Caller.step?, hp, Option.map_eq_none_iff] at hcaller
      exact (collect?_ne_none hsite hcaller).elim
    | held r stage =>
      obtain ⟨rfl, htells⟩ := htells
      obtain ⟨h, hh, -, hst⟩ := exists_hand hsite
      cases stage with
      | taken => exact hi.tells_of_waiting hc hp (.inl htells)
      | handling => exact hi.tells_of_waiting hc hp (.inr htells)
      | returning =>
        have hstep := hhand hh .answer rfl
        simp [Hand.step?, hst] at hstep
      | falling fields =>
        have hstep := hhand hh .fall rfl
        rcases htells with ⟨rfl, -⟩ | ⟨rfl, -⟩ <;> simp [Hand.step?, hst] at hstep

/-- Whose push was refused, no handler ever sees his record. -/
theorem unseen (hi : m.Sound) {i : Nat} {c : Caller} (hc : m.callers[i]? = some c)
    (hl : IsLate c.record m.notes) : .handling c.record ∉ m.notes := by
  have hrefused := (hi.refused i c hc).mpr hl
  have htold := hi.told i c hc
  rw [hi.mem_notes hc rfl]
  cases hp : c.place with
  | rejected fields =>
    simp only [Caller.Told, hp] at htold
    rcases htold with ⟨-, h⟩ | ⟨-, hends⟩
    · simp [h]
    · simp [hends.eq_of_refused]
  | blocked ticket => simp [Caller.IsRefused, hp] at hrefused
  | returned a =>
    simp only [Caller.IsRefused, hp] at hrefused
    subst hrefused
    simp only [Caller.Told, hp] at htold
    obtain ⟨before, h, hends⟩ := htold
    simp [h, hends.eq_of_refused]

theorem disowned (hi : m.Sound) {i : Nat} {c : Caller} (hc : m.callers[i]? = some c) {a : Answer}
    (hp : c.place = .returned a) : c.record ∉ m.owned ∧
      (.handling c.record ∉ m.notes → .released c.record ∈ m.notes) := by
  have htold := hi.told i c hc
  simp only [Caller.Told, hp] at htold
  obtain ⟨before, hstory, hends⟩ := htold
  -- whoever else has a record has one with another number
  have hother {j : Nat} {d : Caller} (hd : m.callers[j]? = some d) (hrec : d.record = c.record) :
      d = c := by
    have hj := hi.serial j d hd
    rw [hrec, hi.serial i c hc] at hj
    subst hj
    exact Option.some.inj (hd.symm.trans hc)
  have hsite (ticket : Nat) (site : Site) (hs : (ticket, site) ∈ m.sites)
      (hrec : ∀ r es, site.Tells r es → r = c.record) : False := by
    obtain ⟨j, d, hd, hplace, htells⟩ := hi.exists_caller hs
    cases hother hd (hrec _ _ htells)
    rw [hp] at hplace
    cases hplace
  refine ⟨fun hmem => ?_, fun hh => ?_⟩
  · rw [owned, List.mem_append, List.mem_append] at hmem
    rcases hmem with (hmem | hmem) | hmem
    · obtain ⟨call, hcall, hrec⟩ := List.mem_map.mp hmem
      refine hsite call.ticket (.queued call.record) ?_ fun r es h => ?_
      · exact List.mem_append_left _ (List.mem_append_left _ (List.mem_map_of_mem hcall))
      · rw [← hrec, h.1]
    · obtain ⟨h, hh, hrec⟩ := List.mem_filterMap.mp hmem
      have hrecord : h.call.record = c.record := by
        unfold Hand.owned? at hrec
        split at hrec <;> simp_all
      refine hsite h.call.ticket _ (held_mem_sites hh) fun r es ht => ?_
      rw [← hrecord, ht.1]
    · obtain ⟨d, hd, hrec⟩ := List.mem_filterMap.mp hmem
      have hrecord : d.record = c.record ∧ d.answer? = none := by
        unfold Caller.owned? at hrec
        split at hrec <;> simp_all [Caller.answer?]
      obtain ⟨j, hd⟩ := List.mem_iff_getElem?.mp hd
      cases hother hd hrecord.1
      rw [Caller.answer?, hp] at hrecord
      cases hrecord.2
  · rw [hi.mem_notes hc rfl, hstory] at hh ⊢
    rw [List.mem_append, not_or] at hh
    exact List.mem_append_left _ (hends.released_mem hh.1)

end Sound

def Hand.rank (h : Hand) : Nat :=
  match h.stage with
  | .taken | .handling => 0
  | .returning => 1
  | .falling fields => fields.length

theorem Hand.rank_step {h : Hand} {deed : Hand.Deed} (hdeed : deed = .answer ∨ deed = .fall)
    {stage? : Option Stage} {answer? : Option Answer} {es : List Note}
    (hd : h.step? deed = some (stage?, answer?, es)) :
    ((stage?.map (Hand.mk h.call)).toList.map Hand.rank).sum + 1 = h.rank := by
  rcases hdeed with rfl | rfl
  · simp only [Hand.step?] at hd
    split at hd <;> cases hd
    next hst => simp [Hand.rank, hst]
  · simp only [Hand.step?] at hd
    split at hd
    next rest hst =>
      cases hd
      simp [Hand.rank, hst]
    next rest hst =>
      cases hd
      by_cases hrest : rest = []
      · simp [Hand.rank, hst, hrest]
      · simp [Hand.rank, hst, hrest]
    next => cases hd

/-- How many steps happen by themselves, unless something else comes to it. -/
def rank (m : Exchange) : Nat := (m.callers.map Caller.rank).sum + (m.hands.map Hand.rank).sum

theorem rank_callers {i : Nat} {c : Caller} {cs : List Caller} (hc : cs[i]? = some c)
    (c' : Caller) :
    ((cs.set i c').map Caller.rank).sum + c.rank = (cs.map Caller.rank).sum + c'.rank := by
  induction cs generalizing i with
  | nil => cases hc
  | cons d rest ih =>
    cases i with
    | zero =>
      cases hc
      simp only [List.set_cons_zero, List.map_cons, List.sum_cons]
      omega
    | succ i =>
      have hrest := ih hc
      simp only [List.set_cons_succ, List.map_cons, List.sum_cons]
      omega

theorem rank_hands {h : Hand} {hs : List Hand} (hh : h ∈ hs) :
    (hs.map Hand.rank).sum = h.rank + ((hs.erase h).map Hand.rank).sum := by
  rw [((List.perm_cons_erase hh).map Hand.rank).sum_nat, List.map_cons, List.sum_cons]

theorem rank_step {label : Label} (hl : label.isInner) (hs : m.step? label = some m') :
    m'.rank + 1 = m.rank := by
  cases label with
  | call id | release | receive | dropReceiver => cases hl
  | caller i =>
    obtain ⟨c, hc, hs⟩ := Option.bind_eq_some_iff.mp hs
    obtain ⟨⟨c', q, rs⟩, hstep, hs⟩ := Option.bind_eq_some_iff.mp hs
    cases hs
    have hsum := rank_callers hc c'
    have hrank := Caller.rank_step hstep
    simp only [rank]
    omega
  | hand h deed =>
    simp only [step?, Option.ite_none_right_eq_some, Option.map_eq_some_iff] at hs
    obtain ⟨hh, ⟨stage?, answer?, es⟩, hstep, rfl⟩ := hs
    have hsum := rank_hands hh
    have hrank : ((stage?.map (Hand.mk h.call)).toList.map Hand.rank).sum + 1 = h.rank := by
      cases deed with
      | invoke | finish keeps | panic keeps | drop => cases hl
      | answer => exact Hand.rank_step (.inl rfl) hstep
      | fall => exact Hand.rank_step (.inr rfl) hstep
    simp only [rank, List.map_append, List.sum_append]
    omega

theorem rank_run {labels : List Label} (hl : ∀ label ∈ labels, label.isInner)
    (hr : m.run? labels = some m') : m'.rank + labels.length = m.rank := by
  induction labels generalizing m with
  | nil =>
    cases hr
    rfl
  | cons label rest ih =>
    obtain ⟨next, hs, hr⟩ := Option.bind_eq_some_iff.mp hr
    obtain ⟨hlabel, hrest⟩ := List.forall_mem_cons.mp hl
    have hfirst := rank_step hlabel hs
    have hlast := ih hrest hr
    rw [List.length_cons]
    omega

theorem returned_step {label : Label} {i : Nat} {c : Caller} (hc : m.callers[i]? = some c)
    (hp : c.answer?.isSome) (hs : m.step? label = some m') : m'.callers[i]? = some c := by
  cases label with
  | call id =>
    simp only [step?, Option.ite_none_right_eq_some, Option.some.injEq] at hs
    obtain ⟨-, rfl⟩ := hs
    exact (List.getElem?_append_left (Sound.lt_of_caller hc)).trans hc
  | caller j =>
    obtain ⟨d, hd, hs⟩ := Option.bind_eq_some_iff.mp hs
    obtain ⟨⟨d', q, rs⟩, hstep, hs⟩ := Option.bind_eq_some_iff.mp hs
    cases hs
    have hji : j ≠ i := by
      rintro rfl
      cases hd.symm.trans hc
      unfold Caller.step? at hstep
      split at hstep <;> simp_all [Caller.answer?]
    exact (List.getElem?_set_ne hji).trans hc
  | release =>
    simp only [step?, Option.ite_none_right_eq_some, Option.some.injEq] at hs
    obtain ⟨-, rfl⟩ := hs
    exact hc
  | receive =>
    simp only [step?, Option.ite_none_right_eq_some, Option.map_eq_some_iff] at hs
    obtain ⟨-, x, -, rfl⟩ := hs
    exact hc
  | dropReceiver =>
    simp only [step?, Option.ite_none_right_eq_some, Option.some.injEq] at hs
    obtain ⟨-, rfl⟩ := hs
    exact hc
  | hand h deed =>
    simp only [step?, Option.ite_none_right_eq_some, Option.map_eq_some_iff] at hs
    obtain ⟨-, x, -, rfl⟩ := hs
    exact hc

theorem returned_run {labels : List Label} {i : Nat} {c : Caller} (hc : m.callers[i]? = some c)
    (hp : c.answer?.isSome) (hr : m.run? labels = some m') : m'.callers[i]? = some c := by
  rw [run?_eq_foldlM] at hr
  exact foldlM_keeps (fun _ _ _ _ hc hs => returned_step hc hp hs) hc hr

/-- What holds of all calls, whatever is done with a queue and in whatever order. -/
structure Reports (m : Exchange) : Prop where
  /-- No call returns before there is something true to tell. -/
  answered : ∀ c ∈ m.callers, c.answer?.isSome → m.Tells c
  /-- Nor does it return later than that: where nothing more happens by itself it tells what there
  is. -/
  settled : (∀ label : Label, label.isInner → m.step? label = none) → ∀ c ∈ m.callers, m.Tells c
  /-- That comes about without anyone's help, -/
  prompt : ∀ more m', (∀ label ∈ more, label.isInner) → m.run? more = some m' →
    m'.rank + more.length = m.rank
  /-- and it is never taken back. -/
  final : ∀ (i : Nat) (c : Caller), m.callers[i]? = some c → c.answer?.isSome →
    ∀ more m', m.run? more = some m' → m'.callers[i]? = some c
  unseen : ∀ c ∈ m.callers, IsLate c.record m.notes → .handling c.record ∉ m.notes
  /-- A call that has returned has left its record to the handler, or it was released before. -/
  disowned : ∀ c ∈ m.callers, c.answer?.isSome → c.record ∉ m.owned ∧
    (.handling c.record ∉ m.notes → .released c.record ∈ m.notes)

/-- **A call reports exactly what happened to its record**, whatever threads, the receiver and those
who have taken calls do, in whatever order. -/
theorem reports_of_run {labels : List Label} (hr : run? {} labels = some m) : m.Reports := by
  have hi := sound_start.run hr
  have hplace {c : Caller} (hc : c.answer?.isSome) : ∃ a, c.place = .returned a := by
    unfold Caller.answer? at hc
    split at hc
    next a hp => exact ⟨a, hp⟩
    all_goals cases hc
  refine ⟨fun c hmem hc => ?_, fun hrest c hmem => ?_, fun more m' hl hm => rank_run hl hm,
    fun i c hc hp more m' hm => returned_run hc hp hm, fun c hmem hl => ?_, fun c hmem hc => ?_⟩
  all_goals obtain ⟨i, hi'⟩ := List.mem_iff_getElem?.mp hmem
  · obtain ⟨a, hp⟩ := hplace hc
    exact hi.tells_of_returned hi' hp
  · exact hi.tells_of_rest hrest hi'
  · exact hi.unseen hi' hl
  · obtain ⟨a, hp⟩ := hplace hc
    exact hi.disowned hi' hp

/-- Four calls are made, three of them taken; then the receiver goes with the fourth, and a fifth
call comes too late. One taken call is invoked after that, one panics, and one is dropped. -/
def fiveCallsLabels : List Label :=
  let c (n : Nat) : Call := ⟨n, ⟨n.toUInt32 + 1, n⟩⟩
  [.call 1, .call 2, .call 3, .call 4, .receive, .receive, .receive,
    .hand ⟨c 1, .taken⟩ .invoke, .dropReceiver, .call 5, .caller 4,
    .hand ⟨c 1, .handling⟩ (.panic true), .hand ⟨c 2, .taken⟩ .drop,
    .hand ⟨c 0, .taken⟩ .invoke, .hand ⟨c 2, .falling Call.fields⟩ .fall,
    .hand ⟨c 0, .handling⟩ (.finish false), .hand ⟨c 3, .falling Call.fields⟩ .fall,
    .hand ⟨c 0, .returning⟩ .answer, .caller 0, .caller 4,
    .hand ⟨c 3, .falling [.done]⟩ .fall, .hand ⟨c 2, .falling [.done]⟩ .fall,
    .hand ⟨c 1, .falling [.done]⟩ .fall, .caller 3, .caller 2, .caller 1, .caller 4]

theorem reports_fiveCalls :
    ∃ m, run? {} fiveCallsLabels = some m ∧
      m.callers.map Caller.answer? =
        [some .handled, some (.failed .handlerAborted), some (.failed .handlerAborted),
          some (.failed .handlerAborted), some (.failed .consumerGone)] ∧
      m.owned = [] ∧ m.rank = 0 ∧ m.Reports := by
  have hends : (run? {} fiveCallsLabels).map (fun m => decide (m.callers.map Caller.answer? =
        [some .handled, some (.failed .handlerAborted), some (.failed .handlerAborted),
          some (.failed .handlerAborted), some (.failed .consumerGone)] ∧
      m.owned = [] ∧ m.rank = 0)) = some true := by decide +kernel
  obtain ⟨m, hr, hm⟩ := Option.map_eq_some_iff.mp hends
  obtain ⟨hanswers, howned, hrank⟩ := of_decide_eq_true hm
  exact ⟨m, hr, hanswers, howned, hrank, reports_of_run hr⟩

end Handoff.Exchange
