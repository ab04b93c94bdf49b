import Handoff.CallQueue.Session
import Handoff.Proofs.Answering

/-! A queue that is driven by hand does what any queue may do whose calls are taken as soon as they
are pushed, and what is seen of it is what was noted of its calls. -/
namespace Handoff.Exchange

namespace Note

def event? : Note → Option Event
  | handling r => some (.handling r)
  | released r => some (.released r)
  | called _ | receiverDropped | handled _ | panicked _ | discarded _ | returned .. => none

def answer? : Note → Option Answer
  | returned _ a => some a
  | called _ | receiverDropped | handling _ | handled _ | panicked _ | discarded _
  | released _ => none

end Note

variable {m : Exchange}

theorem exists_step?_hand {h : Hand} {rest : List Hand} (hh : m.hands.Perm (h :: rest))
    {deed : Hand.Deed} {stage? : Option Stage} {answer? : Option Answer} {es : List Note}
    (hd : h.step? deed = some (stage?, answer?, es)) :
    ∃ hs, hs.Perm ((stage?.map (Hand.mk h.call)).toList ++ rest) ∧
      m.step? (.hand h deed) = some
        { m with
          queue := answer?.elim m.queue (m.queue.answer h.call.ticket)
          hands := hs
          notes := m.notes ++ es } := by
  have hmem : h ∈ m.hands := hh.mem_iff.mpr List.mem_cons_self
  have herase : (m.hands.erase h).Perm rest := by
    have hperm := hh.erase h
    rwa [List.erase_cons_head] at hperm
  refine ⟨_, (herase.append_right _).trans List.perm_append_comm, ?_⟩
  rw [step?, if_pos hmem, hd]
  rfl

theorem exists_run?_answer {c : Call} {rest : List Hand}
    (hh : m.hands.Perm (⟨c, .taken⟩ :: rest)) (d₁ d₂ d₃ : Hand.Deed) {s₁ s₂ : Stage}
    {es₁ es₂ : List Note} {a : Answer}
    (h₁ : Hand.step? ⟨c, .taken⟩ d₁ = some (some s₁, none, es₁))
    (h₂ : Hand.step? ⟨c, s₁⟩ d₂ = some (some s₂, none, es₂))
    (h₃ : Hand.step? ⟨c, s₂⟩ d₃ = some (none, some a, [])) :
    ∃ labels hs, hs.Perm rest ∧ m.run? labels = some
      { m with
        queue := m.queue.answer c.ticket a
        hands := hs
        notes := m.notes ++ (es₁ ++ es₂) } := by
  obtain ⟨hs₁, hh₁, hstep₁⟩ := exists_step?_hand hh h₁
  obtain ⟨hs₂, hh₂, hstep₂⟩ := exists_step?_hand
    (m := { m with hands := hs₁, notes := m.notes ++ es₁ }) hh₁ h₂
  obtain ⟨hs₃, hh₃, hstep₃⟩ := exists_step?_hand
    (m := { m with hands := hs₂, notes := m.notes ++ es₁ ++ es₂ }) hh₂ h₃
  have hrun := run?_append (run?_singleton hstep₁)
    (run?_append (run?_singleton hstep₂) (run?_singleton hstep₃))
  rw [List.append_nil, List.append_assoc] at hrun
  exact ⟨_, hs₃, hh₃, hrun⟩

theorem step?_caller_concat {cs : List Caller} {c c' : Caller} (hcs : m.callers = cs ++ [c])
    {q : CallQueue} {rs : List Record} (hs : c.step? m.queue = some (c', q, rs)) :
    m.step? (.caller cs.length) = some
      { m with
        queue := q
        callers := cs ++ [c']
        notes := m.notes ++
          (rs.map Note.released ++ (c'.answer?.map (.returned c.record)).toList) } := by
  have hc : m.callers[cs.length]? = some c := by rw [hcs, List.getElem?_concat_length]
  have hset : m.callers.set cs.length c' = cs ++ [c'] := by
    rw [hcs, List.set_append_right _ _ (Nat.le_refl _), Nat.sub_self]
    rfl
  simp only [step?, hc, hs, hset, Option.bind_eq_bind, Option.bind_some]
  rfl

def next (m : Exchange) (id : UInt32) : Record := ⟨id, m.callers.length⟩

theorem run?_call_receive (hsender : m.queue.hasSender = true) (hr : m.queue.hasReceiver = true)
    (hcalls : m.queue.calls = []) (id : UInt32) :
    m.run? [.call id, .receive] = some
      { m with
        queue := { m.queue with issued := m.queue.issued + 1 }
        callers := m.callers ++ [⟨m.next id, .blocked m.queue.issued⟩]
        hands := m.hands ++ [⟨⟨m.queue.issued, m.next id⟩, .taken⟩]
        notes := m.notes ++ [.called (m.next id)] } := by
  simp [run?, step?, hsender, Caller.enter_of_hasReceiver hr, hr, CallQueue.take?, hcalls, next]

theorem exists_run?_refused (hsender : m.queue.hasSender = true)
    (hr : m.queue.hasReceiver = false) (id : UInt32) :
    ∃ labels, m.run? labels = some
      { m with
        callers := m.callers ++ [⟨m.next id, .returned (.failed .consumerGone)⟩]
        notes := m.notes ++ [.called (m.next id), .released (m.next id),
          .returned (m.next id) (.failed .consumerGone)] } := by
  have hcall : m.step? (.call id) = some
      { m with
        callers := m.callers ++ [⟨m.next id, .rejected Call.fields⟩]
        notes := m.notes ++ [.called (m.next id)] } := by
    simp only [step?, if_pos hsender, Caller.enter_of_not_hasReceiver hr]
    rfl
  have hrecord := step?_caller_concat (m := { m with
      callers := m.callers ++ [⟨m.next id, .rejected Call.fields⟩]
      notes := m.notes ++ [.called (m.next id)] }) rfl rfl
  have hdone := step?_caller_concat (m := { m with
      callers := m.callers ++ [⟨m.next id, .rejected [.done]⟩]
      notes := m.notes ++ [.called (m.next id)] ++ [.released (m.next id)] }) rfl rfl
  have hreturn := step?_caller_concat (m := { m with
      callers := m.callers ++ [⟨m.next id, .rejected []⟩]
      notes := m.notes ++ [.called (m.next id)] ++ [.released (m.next id)] ++ [] }) rfl rfl
  have hrun := run?_append (run?_singleton hcall) (run?_append (run?_singleton hrecord)
    (run?_append (run?_singleton hdone) (run?_singleton hreturn)))
  refine ⟨_, hrun.trans ?_⟩
  simp [Caller.answer?]

end Handoff.Exchange

namespace Handoff.CallQueue

open Exchange

def Session.Result.answer? : Session.Result → Option Answer
  | returned a => some a
  | called a? _ => a?
  | absent | slot _ | pending | closed | done | busy => none

namespace Session

def outstanding (s : Session) : List Call := s.slots.filterMap id

theorem perm_filterMap_set {slots : List (Option Call)} {n : Nat} {c : Call}
    (hc : slots[n]? = some (some c)) :
    (slots.filterMap id).Perm (c :: (slots.set n none).filterMap id) := by
  induction slots generalizing n with
  | nil => cases hc
  | cons x rest ih =>
    cases n with
    | zero =>
      cases hc
      exact .refl _
    | succ n =>
      have hrest := ih hc
      cases x with
      | none => exact hrest
      | some d => exact (hrest.cons d).trans (.swap c d _)

/-- In an exchange all has been done that was done by hand. -/
structure Plays (s : Session) (e : Exchange) : Prop where
  queue : e.queue = s.queue
  calls : s.queue.calls = []
  answers : s.queue.answers = []
  hands : e.hands.Perm (s.outstanding.map fun c => ⟨c, .taken⟩)
  made : e.callers.length = s.made
  dropped : ∀ c ∈ e.callers, ∀ fields, c.place ≠ .rejected fields
  sound : e.Sound

/-- An exchange goes on as it was replied by hand, and notes what was seen and answered then. -/
def Continues (e : Exchange) (reply : Reply) : Prop :=
  ∃ labels e' more, e.run? labels = some e' ∧ reply.2.2.Plays e' ∧ e'.notes = e.notes ++ more ∧
    more.filterMap Note.event? = reply.2.1 ∧ more.filterMap Note.answer? = reply.1.answer?.toList

variable {s : Session} {e : Exchange}

namespace Plays

theorem stay (hi : s.Plays e) {result : Result} (hr : result.answer? = none) :
    Continues e (result, [], s) :=
  ⟨[], e, [], rfl, hi, (List.append_nil _).symm, rfl, by rw [hr]; rfl⟩

theorem call (hi : s.Plays e) (id : UInt32) : Continues e (s.call id) := by
  unfold Session.call
  cases hsender : s.queue.hasSender with
  | false => exact hi.stay rfl
  | true =>
    have hsender' : e.queue.hasSender = true := hi.queue ▸ hsender
    have hcalls : e.queue.calls = [] := hi.queue ▸ hi.calls
    have hrecord : e.next id = ⟨id, s.made⟩ := by rw [Exchange.next, hi.made]
    cases hr : s.queue.hasReceiver with
    | true =>
      have hrun := run?_call_receive hsender' (hi.queue ▸ hr) hcalls id
      have hsound := hi.sound.run hrun
      rw [hrecord, hi.queue] at hrun hsound
      simp only [push?, hr, take?, hi.calls, List.nil_append, if_true]
      refine ⟨_, _, [.called ⟨id, s.made⟩], hrun, ?_, rfl, rfl, rfl⟩
      refine ⟨by simp [hi.calls, hr], rfl, hi.answers, ?_, ?_, ?_, hsound⟩
      · simp only [outstanding, List.filterMap_append, List.map_append]
        exact hi.hands.append_right _
      · simp [hi.made]
      · intro c hc fields
        rcases List.mem_append.mp hc with hc | hc
        · exact hi.dropped c hc fields
        · rw [List.mem_singleton.mp hc]
          simp
    | false =>
      obtain ⟨labels, hrun⟩ := exists_run?_refused hsender' (hi.queue ▸ hr) id
      have hsound := hi.sound.run hrun
      rw [hrecord] at hrun hsound
      simp only [push?, hr, if_true]
      refine ⟨_, _, _, hrun, ?_, rfl, rfl, rfl⟩
      refine ⟨hi.queue, hi.calls, hi.answers, hi.hands, ?_, ?_, hsound⟩
      · simp [hi.made]
      · intro c hc fields
        rcases List.mem_append.mp hc with hc | hc
        · exact hi.dropped c hc fields
        · rw [List.mem_singleton.mp hc]
          simp

/-- Dealing with a call is as much as three deeds and the return of its caller. -/
theorem settle (hi : s.Plays e) (slot : Nat) (a : Answer) (panic? : Option Payload)
    {es : Record → List Event}
    (hrun : ∀ {c : Call} {rest : List Hand}, e.hands.Perm (⟨c, .taken⟩ :: rest) →
      ∃ labels hs more, hs.Perm rest ∧ e.run? labels = some
        { e with queue := e.queue.answer c.ticket a, hands := hs, notes := e.notes ++ more } ∧
        more.filterMap Note.event? = es c.record ∧ more.filterMap Note.answer? = []) :
    Continues e (s.settle slot a panic? es) := by
  unfold Session.settle
  split
  next c hc =>
    have hhands : e.hands.Perm
        (⟨c, .taken⟩ :: ((s.slots.set slot none).filterMap id).map fun c => ⟨c, .taken⟩) :=
      hi.hands.trans ((perm_filterMap_set hc).map fun c => (⟨c, .taken⟩ : Hand))
    obtain ⟨labels, hs, more, hperm, hr, hevents, hanswers⟩ := hrun hhands
    obtain ⟨j, d, hd, hplace, -⟩ :=
      hi.sound.exists_caller (held_mem_sites (hhands.mem_iff.mpr List.mem_cons_self))
    have hcollect : (s.queue.answer c.ticket a).collect? c.ticket = some (a, s.queue) := by
      have hone : (s.queue.answer c.ticket a).answers = [(c.ticket, a)] := by
        simp [answer, hi.answers]
      have hsame : { s.queue.answer c.ticket a with answers := [] } = s.queue := by
        rw [answer, ← hi.answers]
      rw [collect?_of_answers_eq hone, hsame]
    have hstep : Exchange.step?
        { e with queue := e.queue.answer c.ticket a, hands := hs, notes := e.notes ++ more }
        (.caller j) = some
          { e with
            queue := s.queue
            callers := e.callers.set j { d with place := .returned a }
            hands := hs
            notes := e.notes ++ more ++ [.returned d.record a] } := by
      simp [Exchange.step?, hd, Caller.step?, hplace, hi.queue, hcollect, Caller.answer?]
    have hrun' := run?_append hr (run?_singleton hstep)
    simp only [hcollect]
    refine ⟨_, _, more ++ [.returned d.record a], hrun', ?_, List.append_assoc .., ?_, ?_⟩
    · refine ⟨rfl, hi.calls, hi.answers, hperm, ?_, fun c hc fields => ?_, hi.sound.run hrun'⟩
      · simpa using hi.made
      · rcases List.mem_or_eq_of_mem_set hc with hc | rfl
        · exact hi.dropped c hc fields
        · simp
    · rw [List.filterMap_append, hevents]
      exact List.append_nil _
    · rw [List.filterMap_append, hanswers]
      rfl
  next => exact hi.stay rfl

theorem answered_of_not_isBusy (hi : s.Plays e) (hb : ¬ s.isBusy) :
    ∀ c ∈ e.callers, c.answer?.isSome := by
  intro c hc
  have hnone : s.outstanding = [] := by
    refine List.filterMap_eq_nil_iff.mpr fun x hx => ?_
    cases x with
    | none => rfl
    | some d => exact (hb (List.any_eq_true.mpr ⟨_, hx, rfl⟩)).elim
  have hhands : e.hands = [] := by
    have hperm := hi.hands
    rw [hnone] at hperm
    exact hperm.eq_nil
  obtain ⟨i, hc'⟩ := List.mem_iff_getElem?.mp hc
  have htold := hi.sound.told i c hc'
  cases hplace : c.place with
  | rejected fields => exact (hi.dropped c hc fields hplace).elim
  | returned a => simp [Caller.answer?, hplace]
  | blocked ticket =>
    simp only [Caller.Told, hplace] at htold
    obtain ⟨site, hsite, -⟩ := htold
    simp [sites, hhands, hi.queue, hi.calls, hi.answers] at hsite

theorem step (hi : s.Plays e) (x : Step) : Continues e (s.step x) := by
  cases x with
  | call id => exact hi.call id
  | invoke slot =>
    refine hi.settle slot .handled none fun {c rest} hh => ?_
    obtain ⟨labels, hs, hperm, hr⟩ := exists_run?_answer hh .invoke (.finish false) .answer
      rfl rfl rfl
    exact ⟨labels, hs, _, hperm, hr, rfl, rfl⟩
  | invokePanic slot p =>
    refine hi.settle slot (.failed .handlerAborted) (some p) fun {c rest} hh => ?_
    obtain ⟨labels, hs, hperm, hr⟩ := exists_run?_answer hh .invoke (.panic false) .fall
      rfl rfl rfl
    exact ⟨labels, hs, _, hperm, hr, rfl, rfl⟩
  | dropCall slot =>
    refine hi.settle slot (.failed .handlerAborted) none fun {c rest} hh => ?_
    obtain ⟨labels, hs, hperm, hr⟩ := exists_run?_answer hh .drop .fall .fall rfl rfl rfl
    exact ⟨labels, hs, _, hperm, hr, rfl, rfl⟩
  | receive =>
    simp only [Session.step]
    split
    · exact hi.stay rfl
    · split
      · exact hi.stay rfl
      · exact hi.stay rfl
  | dropReceiver =>
    simp only [Session.step]
    split
    next hr =>
      have hstep : e.step? .dropReceiver = some
          { e with
            queue := { s.queue with hasReceiver := false }
            notes := e.notes ++ [.receiverDropped] } := by
        simp [Exchange.step?, hi.queue, hr, hi.calls]
      have hrun := run?_singleton hstep
      rw [dropReceiver_of_calls_eq_nil hi.calls]
      exact ⟨_, _, _, hrun, ⟨rfl, hi.calls, hi.answers, hi.hands, hi.made, hi.dropped,
        hi.sound.run hrun⟩, rfl, rfl, rfl⟩
    next => exact hi.stay rfl
  | release =>
    simp only [Session.step]
    split
    next => exact hi.stay rfl
    next hsender =>
      split
      next => exact hi.stay rfl
      next hbusy =>
        have hanswered := hi.answered_of_not_isBusy hbusy
        have hstep : e.step? .release = some { e with queue := s.queue.dropSender } := by
          have hsender' : e.queue.hasSender = true := by simpa [hi.queue] using hsender
          rw [Exchange.step?, if_pos ⟨hsender', hanswered⟩, hi.queue]
        have hrun := run?_singleton hstep
        exact ⟨_, _, [], hrun, ⟨rfl, hi.calls, hi.answers, hi.hands, hi.made, hi.dropped,
          hi.sound.run hrun⟩, (List.append_nil _).symm, rfl, rfl⟩
  | unknown => exact hi.stay rfl

end Plays

theorem plays_start : Plays {} {} where
  queue := rfl
  calls := rfl
  answers := rfl
  hands := .refl _
  made := rfl
  dropped := by simp
  sound := sound_start

theorem Plays.answers_eq (hi : s.Plays e) (xs : List Step) :
    ∃ labels e', e.run? labels = some e' ∧ e'.Sound ∧
      e'.notes.filterMap Note.event? =
        e.notes.filterMap Note.event? ++ (s.answers xs).flatMap (·.2) ∧
      e'.notes.filterMap Note.answer? =
        e.notes.filterMap Note.answer? ++ (s.answers xs).filterMap (·.1.answer?) := by
  induction xs generalizing s e with
  | nil => exact ⟨[], e, rfl, hi.sound, by simp [Session.answers], by simp [Session.answers]⟩
  | cons x rest ih =>
    obtain ⟨first, e₁, more, hfirst, hi₁, hnotes, hevents, hanswers⟩ := hi.step x
    obtain ⟨labels, e', hrun, hsound, hevents', hanswers'⟩ := ih hi₁
    refine ⟨first ++ labels, e', run?_append hfirst hrun, hsound, ?_, ?_⟩
    · rw [hevents', hnotes, List.filterMap_append, hevents, List.append_assoc]
      rfl
    · rw [hanswers', hnotes, List.filterMap_append, hanswers, List.append_assoc, Session.answers]
      cases h : (s.step x).1.answer? <;> simp [h]

/-- **A queue that is driven by hand replies the truth**: all that is seen and told of its calls was
noted in an exchange in which they were made, and whoever was told something there knows what
happened. -/
theorem answers_eq_notes (xs : List Step) : ∃ labels e, Exchange.run? {} labels = some e ∧
    (answers {} xs).flatMap (·.2) = e.notes.filterMap Note.event? ∧
    (answers {} xs).filterMap (·.1.answer?) = e.notes.filterMap Note.answer? ∧
    ∀ c ∈ e.callers, c.answer?.isSome → e.Tells c := by
  obtain ⟨labels, e, hrun, hsound, hevents, hanswers⟩ := plays_start.answers_eq xs
  refine ⟨labels, e, hrun, hevents.symm, hanswers.symm, fun c hc ha => ?_⟩
  obtain ⟨i, hc⟩ := List.mem_iff_getElem?.mp hc
  obtain ⟨a, ha⟩ := Option.isSome_iff_exists.mp ha
  exact hsound.tells_of_returned hc (Caller.answer?_eq_some_iff.mp ha)

end Session

end Handoff.CallQueue
