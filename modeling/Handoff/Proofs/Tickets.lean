import Handoff.CallQueue.Exchange
import Mathlib.Data.List.Nodup

/-! Every call has one place at a time, which its ticket leads to, and what was noted of its record
so far says which place that is. -/
namespace Handoff.Exchange

namespace Note

def serial? : Note → Option Nat
  | called r | handling r | handled r | panicked r | discarded r | released r | returned r _ =>
    some r.serial
  | receiverDropped => none

end Note

/-- What was noted of one call. -/
def story (i : Nat) (es : List Note) : List Note := es.filter (·.serial? = some i)

@[simp] theorem story_append (i : Nat) (es more : List Note) :
    story i (es ++ more) = story i es ++ story i more := List.filter_append ..

theorem story_eq_nil {i : Nat} {es : List Note} (h : ∀ e ∈ es, e.serial? ≠ some i) :
    story i es = [] := by
  simpa [story] using h

theorem story_eq_self {i : Nat} {es : List Note} (h : ∀ e ∈ es, e.serial? = some i) :
    story i es = es := by
  simpa [story] using h

theorem story_append_of_ne {i j : Nat} {more : List Note} (h : ∀ e ∈ more, e.serial? = some j)
    (hne : i ≠ j) (es : List Note) : story i (es ++ more) = story i es := by
  have hnil : story i more = [] := story_eq_nil fun e he heq => by
    rw [h e he] at heq
    exact hne (Option.some.inj heq).symm
  rw [story_append, hnil, List.append_nil]

theorem mem_story {e : Note} {i : Nat} {es : List Note} (h : e.serial? = some i) :
    e ∈ story i es ↔ e ∈ es := by
  simp [story, h]

/-- The receiver was gone before the record was pushed. -/
def IsLate (r : Record) (es : List Note) : Prop :=
  .receiverDropped ∈ es.takeWhile (· ≠ .called r)

theorem isLate_append {r : Record} {es : List Note} (hr : .called r ∈ es) (more : List Note) :
    IsLate r (es ++ more) ↔ IsLate r es := by
  unfold IsLate
  induction es with
  | nil => cases hr
  | cons e rest ih =>
    by_cases he : e = .called r
    · simp [he]
    · have hrest : .called r ∈ rest := by
        rcases List.mem_cons.mp hr with rfl | hrest
        · exact (he rfl).elim
        · exact hrest
      rw [List.cons_append, List.takeWhile_cons_of_pos (by simpa using he),
        List.takeWhile_cons_of_pos (by simpa using he), List.mem_cons, List.mem_cons, ih hrest]

theorem isLate_of_notMem {r : Record} {es : List Note} (hr : .called r ∉ es) :
    IsLate r (es ++ [.called r]) ↔ .receiverDropped ∈ es := by
  have hall : ∀ e ∈ es, decide (e ≠ .called r) = true := fun e he => by
    simpa using fun heq : e = .called r => hr (heq ▸ he)
  rw [IsLate, List.takeWhile_append_of_pos hall]
  simp

/-- What was noted of a call that is over, by its answer. -/
inductive Ends (r : Record) : Answer → List Note → Prop where
  | handled {es : List Note} (h : es = [] ∨ es = [.released r]) :
    Ends r .handled ([.called r, .handling r] ++ es ++ [.handled r])
  | panicked {es : List Note} (h : es = [] ∨ es = [.released r]) :
    Ends r (.failed .handlerAborted) ([.called r, .handling r] ++ es ++ [.panicked r])
  | discarded : Ends r (.failed .handlerAborted) [.called r, .discarded r, .released r]
  | refused : Ends r (.failed .consumerGone) [.called r, .released r]

namespace Ends

variable {r : Record} {a : Answer} {es : List Note}

theorem eq_of_refused (h : Ends r (.failed .consumerGone) es) : es = [.called r, .released r] := by
  cases h
  rfl

theorem released_mem (h : Ends r a es) (hh : .handling r ∉ es) : .released r ∈ es := by
  cases h with
  | handled | panicked => simp at hh
  | discarded | refused => simp

end Ends

/-- Where a call is that was accepted. -/
inductive Site where
  | queued (r : Record)
  | held (r : Record) (stage : Stage)
  | answered (a : Answer)
deriving DecidableEq

/-- The places of all accepted calls that were not collected, by their tickets. -/
def sites (m : Exchange) : List (Nat × Site) :=
  m.queue.calls.map (fun c => (c.ticket, .queued c.record)) ++
    m.hands.map (fun h => (h.call.ticket, .held h.call.record h.stage)) ++
    m.queue.answers.map fun x => (x.1, .answered x.2)

/-- What was noted of a call that is at some place. -/
def Site.Tells (r : Record) (es : List Note) : Site → Prop
  | queued r' => r' = r ∧ es = [.called r]
  | held r' stage => r' = r ∧
    match stage with
    | .taken => es = [.called r]
    | .handling => es = [.called r, .handling r]
    | .returning => Ends r .handled es
    | .falling fields =>
      (fields = [.record, .done] ∧ es = [.called r, .discarded r]) ∨
        (fields = [.done] ∧ Ends r (.failed .handlerAborted) es)
  | answered a => a ≠ .failed .consumerGone ∧ Ends r a es

end Handoff.Exchange

namespace Handoff.Caller

open Exchange

/-- Where a caller stands and what was noted of his call. -/
def Told (c : Caller) (sites : List (Nat × Site)) (es : List Note) : Prop :=
  match c.place with
  | .rejected fields =>
    (fields = [.record, .done] ∧ es = [.called c.record]) ∨
      ((fields = [.done] ∨ fields = []) ∧ Ends c.record (.failed .consumerGone) es)
  | .blocked ticket => ∃ site, (ticket, site) ∈ sites ∧ site.Tells c.record es
  | .returned a => ∃ before, es = before ++ [.returned c.record a] ∧ Ends c.record a before

def rank (c : Caller) : Nat :=
  match c.place with
  | .rejected fields => fields.length + 1
  | .blocked _ => 1
  | .returned _ => 0

def IsRefused (c : Caller) : Prop :=
  match c.place with
  | .rejected _ => True
  | .blocked _ => False
  | .returned a => a = .failed .consumerGone

theorem rank_step {c c' : Caller} {q q' : CallQueue} {rs : List Record}
    (hs : c.step? q = some (c', q', rs)) : c'.rank + 1 = c.rank := by
  unfold step? at hs
  split at hs
  next rest hp =>
    cases hs
    simp [rank, hp]
  next rest hp =>
    cases hs
    simp [rank, hp]
  next hp =>
    cases hs
    simp [rank, hp]
  next ticket hp =>
    obtain ⟨x, -, heq⟩ := Option.map_eq_some_iff.mp hs
    cases heq
    simp [rank, hp]
  next => cases hs

theorem isRefused_step {c c' : Caller} {q q' : CallQueue} {rs : List Record}
    (hs : c.step? q = some (c', q', rs)) (hr : c.IsRefused) : c'.IsRefused := by
  unfold step? at hs
  split at hs
  next => cases hs; trivial
  next => cases hs; trivial
  next => cases hs; rfl
  next ticket hp => simp [IsRefused, hp] at hr
  next => cases hs

namespace Told

variable {c : Caller} {ss ss' : List (Nat × Site)} {es : List Note}

theorem keep (ht : c.Told ss es)
    (h : ∀ ticket site, c.place = .blocked ticket → (ticket, site) ∈ ss → (ticket, site) ∈ ss') :
    c.Told ss' es := by
  cases hp : c.place with
  | rejected fields | returned a =>
    simp only [Told, hp] at ht ⊢
    exact ht
  | blocked ticket =>
    simp only [Told, hp] at ht ⊢
    obtain ⟨site, hmem, htells⟩ := ht
    exact ⟨site, h ticket site hp hmem, htells⟩

theorem called_mem (ht : c.Told ss es) : .called c.record ∈ es := by
  have hends {a : Answer} {before : List Note} (h : Ends c.record a before) :
      .called c.record ∈ before := by
    cases h <;> simp
  cases hp : c.place with
  | rejected fields =>
    simp only [Told, hp] at ht
    rcases ht with ⟨-, rfl⟩ | ⟨-, h⟩
    · exact List.mem_singleton_self _
    · exact hends h
  | blocked ticket =>
    simp only [Told, hp] at ht
    obtain ⟨site, -, htells⟩ := ht
    cases site with
    | queued r =>
      rw [htells.2]
      exact List.mem_singleton_self _
    | answered a => exact hends htells.2
    | held r stage =>
      obtain ⟨-, htells⟩ := htells
      cases stage with
      | taken | handling =>
        rw [htells]
        exact List.mem_cons_self
      | returning => exact hends htells
      | falling fields =>
        rcases htells with ⟨-, rfl⟩ | ⟨-, h⟩
        · exact List.mem_cons_self
        · exact hends h
  | returned a =>
    simp only [Told, hp] at ht
    obtain ⟨before, rfl, h⟩ := ht
    exact List.mem_append_left _ (hends h)

end Told

end Handoff.Caller

namespace Handoff.Exchange

/-- What holds of all calls at every moment. -/
structure Sound (m : Exchange) : Prop where
  serial : ∀ (i : Nat) (c : Caller), m.callers[i]? = some c → c.record.serial = i
  told : ∀ (i : Nat) (c : Caller), m.callers[i]? = some c → c.Told m.sites (story i m.notes)
  refused : ∀ (i : Nat) (c : Caller), m.callers[i]? = some c →
    (c.IsRefused ↔ IsLate c.record m.notes)
  fresh : ∀ i, m.callers.length ≤ i → story i m.notes = []
  dropped : m.queue.hasReceiver = false ↔ .receiverDropped ∈ m.notes
  nodup : (m.sites.map (·.1)).Nodup
  issued : ∀ x ∈ m.sites, x.1 < m.queue.issued
  waiting : ∀ x ∈ m.sites, ∃ (i : Nat) (c : Caller), m.callers[i]? = some c ∧
    c.place = .blocked x.1
  unique : ∀ (i j : Nat) (c c' : Caller) (ticket : Nat), m.callers[i]? = some c →
    m.callers[j]? = some c' → c.place = .blocked ticket → c'.place = .blocked ticket → i = j

namespace Sound

variable {m m' : Exchange}

theorem site_unique (hi : m.Sound) {ticket : Nat} {site site' : Site}
    (h : (ticket, site) ∈ m.sites) (h' : (ticket, site') ∈ m.sites) : site = site' := by
  have heq := List.inj_on_of_nodup_map hi.nodup h h' rfl
  cases heq
  rfl

theorem lt_of_caller {i : Nat} {c : Caller} (hc : m.callers[i]? = some c) :
    i < m.callers.length := by
  by_cases hlt : i < m.callers.length
  · exact hlt
  · rw [List.getElem?_eq_none (by omega)] at hc
    cases hc

theorem called_mem (hi : m.Sound) {i : Nat} {c : Caller} (hc : m.callers[i]? = some c) :
    .called c.record ∈ m.notes := by
  have hmem := (hi.told i c hc).called_mem
  rw [← hi.serial i c hc] at hmem
  exact (mem_story rfl).mp hmem

theorem exists_caller (hi : m.Sound) {ticket : Nat} {site : Site} (h : (ticket, site) ∈ m.sites) :
    ∃ (j : Nat) (c : Caller), m.callers[j]? = some c ∧ c.place = .blocked ticket ∧
      site.Tells c.record (story j m.notes) := by
  obtain ⟨j, c, hc, hplace⟩ := hi.waiting _ h
  have htold := hi.told j c hc
  simp only [Caller.Told, hplace] at htold
  obtain ⟨site', hmem, htells⟩ := htold
  rw [hi.site_unique hmem h] at htells
  exact ⟨j, c, hc, hplace, htells⟩

theorem dropped_append (hi : m.Sound) {es : List Note}
    (hreceiver : m'.queue.hasReceiver = m.queue.hasReceiver) (hnotes : m'.notes = m.notes ++ es)
    (hes : .receiverDropped ∉ es) :
    m'.queue.hasReceiver = false ↔ .receiverDropped ∈ m'.notes := by
  rw [hreceiver, hnotes, List.mem_append, or_iff_left hes]
  exact hi.dropped

/-- One call goes to another place, which is noted of nobody else. -/
theorem move (hi : m.Sound) {ticket : Nat} {site site' : Site} {rest : List (Nat × Site)}
    {es : List Note} (hsites : m.sites.Perm ((ticket, site) :: rest))
    (hsites' : m'.sites.Perm ((ticket, site') :: rest)) (hcallers : m'.callers = m.callers)
    (hissued : m'.queue.issued = m.queue.issued)
    (hreceiver : m'.queue.hasReceiver = m.queue.hasReceiver) (hnotes : m'.notes = m.notes ++ es)
    (htells : ∀ r before, site.Tells r before →
      (∀ e ∈ es, e.serial? = some r.serial) ∧ site'.Tells r (before ++ es)) : m'.Sound := by
  have hmem {x : Nat × Site} : x ∈ m.sites ↔ x = (ticket, site) ∨ x ∈ rest := by
    rw [hsites.mem_iff, List.mem_cons]
  have hmem' {x : Nat × Site} : x ∈ m'.sites ↔ x = (ticket, site') ∨ x ∈ rest := by
    rw [hsites'.mem_iff, List.mem_cons]
  obtain ⟨j, c, hc, hplace, htold⟩ := hi.exists_caller (hmem.mpr (.inl rfl))
  obtain ⟨hserial, htold'⟩ := htells c.record _ htold
  rw [hi.serial j c hc] at hserial
  have hother {i : Nat} (hne : i ≠ j) : story i m'.notes = story i m.notes := by
    rw [hnotes, story_append_of_ne hserial hne]
  constructor
  case serial =>
    rw [hcallers]
    exact hi.serial
  case told =>
    rw [hcallers]
    intro i d hd
    by_cases hij : i = j
    · subst hij
      cases hc.symm.trans hd
      simp only [Caller.Told, hplace]
      rw [hnotes, story_append, story_eq_self hserial]
      exact ⟨site', hmem'.mpr (.inl rfl), htold'⟩
    · rw [hother hij]
      refine (hi.told i d hd).keep fun ticket' s hd' hs => ?_
      rcases hmem.mp hs with heq | hs
      · -- nobody else waits on this ticket
        cases heq
        exact (hij (hi.unique i j d c ticket hd hc hd' hplace)).elim
      · exact hmem'.mpr (.inr hs)
  case refused =>
    rw [hcallers]
    intro i d hd
    rw [hnotes, isLate_append (hi.called_mem hd)]
    exact hi.refused i d hd
  case fresh =>
    rw [hcallers]
    intro i hle
    have hlt := lt_of_caller hc
    rw [hother (by omega)]
    exact hi.fresh i hle
  case dropped => exact hi.dropped_append hreceiver hnotes fun he => by cases hserial _ he
  case nodup =>
    have hnodup := hi.nodup
    rw [(hsites.map _).nodup_iff] at hnodup
    rwa [(hsites'.map _).nodup_iff]
  case issued =>
    intro x hx
    rw [hissued]
    rcases hmem'.mp hx with rfl | hx
    · exact hi.issued (ticket, site) (hmem.mpr (.inl rfl))
    · exact hi.issued x (hmem.mpr (.inr hx))
  case waiting =>
    rw [hcallers]
    intro x hx
    rcases hmem'.mp hx with rfl | hx
    · exact ⟨j, c, hc, hplace⟩
    · exact hi.waiting x (hmem.mpr (.inr hx))
  case unique =>
    rw [hcallers]
    exact hi.unique

/-- A caller goes on in his call, and if he had a ticket it has no place any more. -/
theorem goOn (hi : m.Sound) {i : Nat} {c c' : Caller} {es : List Note}
    (hc : m.callers[i]? = some c) (hcallers : m'.callers = m.callers.set i c')
    (hrecord : c'.record = c.record) (hissued : m'.queue.issued = m.queue.issued)
    (hreceiver : m'.queue.hasReceiver = m.queue.hasReceiver) (hnotes : m'.notes = m.notes ++ es)
    (hes : ∀ e ∈ es, e.serial? = some i) (hplace : ∀ ticket, c'.place ≠ .blocked ticket)
    (hnodup : (m'.sites.map (·.1)).Nodup)
    (hsites : ∀ x, x ∈ m'.sites ↔ x ∈ m.sites ∧ c.place ≠ .blocked x.1)
    (htold : c'.Told m'.sites (story i m.notes ++ es)) (hrefused : c'.IsRefused ↔ c.IsRefused) :
    m'.Sound := by
  have hlt := lt_of_caller hc
  have hself : m'.callers[i]? = some c' := by rw [hcallers, List.getElem?_set_self hlt]
  have hne {j : Nat} (hij : i ≠ j) : m'.callers[j]? = m.callers[j]? := by
    rw [hcallers, List.getElem?_set_ne hij]
  have hother {j : Nat} (hij : i ≠ j) : story j m'.notes = story j m.notes := by
    rw [hnotes, story_append_of_ne hes hij.symm]
  constructor
  case serial =>
    intro j d hd
    by_cases hij : i = j
    · subst hij
      cases hself.symm.trans hd
      rw [hrecord]
      exact hi.serial i c hc
    · rw [hne hij] at hd
      exact hi.serial j d hd
  case told =>
    intro j d hd
    by_cases hij : i = j
    · subst hij
      cases hself.symm.trans hd
      rw [hnotes, story_append, story_eq_self hes]
      exact htold
    · rw [hne hij] at hd
      rw [hother hij]
      -- the place that goes, if one does, is that of caller `i` alone
      refine (hi.told j d hd).keep fun ticket site hd' hs => (hsites _).mpr ⟨hs, fun hc' => ?_⟩
      exact hij (hi.unique i j c d ticket hc hd hc' hd')
  case refused =>
    intro j d hd
    by_cases hij : i = j
    · subst hij
      cases hself.symm.trans hd
      rw [hrefused, hrecord, hnotes, isLate_append (hi.called_mem hc)]
      exact hi.refused i c hc
    · rw [hne hij] at hd
      rw [hnotes, isLate_append (hi.called_mem hd)]
      exact hi.refused j d hd
  case fresh =>
    intro j hle
    rw [hcallers, List.length_set] at hle
    rw [hother (by omega)]
    exact hi.fresh j hle
  case dropped => exact hi.dropped_append hreceiver hnotes fun he => by cases hes _ he
  case nodup => exact hnodup
  case issued =>
    intro x hx
    rw [hissued]
    exact hi.issued x ((hsites x).mp hx).1
  case waiting =>
    intro x hx
    obtain ⟨hx, hnot⟩ := (hsites x).mp hx
    obtain ⟨j, d, hd, hplace'⟩ := hi.waiting x hx
    have hij : i ≠ j := by
      rintro rfl
      cases hc.symm.trans hd
      exact hnot hplace'
    exact ⟨j, d, by rw [hne hij, hd], hplace'⟩
  case unique =>
    intro j k d d' ticket hd hd' hp hp'
    have hj : i ≠ j := by
      rintro rfl
      cases hself.symm.trans hd
      exact hplace ticket hp
    have hk : i ≠ k := by
      rintro rfl
      cases hself.symm.trans hd'
      exact hplace ticket hp'
    rw [hne hj] at hd
    rw [hne hk] at hd'
    exact hi.unique j k d d' ticket hd hd' hp hp'

theorem enter (hi : m.Sound) {c : Caller} {new : List (Nat × Site)}
    (hserial : c.record.serial = m.callers.length) (hcallers : m'.callers = m.callers ++ [c])
    (hreceiver : m'.queue.hasReceiver = m.queue.hasReceiver)
    (hnotes : m'.notes = m.notes ++ [.called c.record]) (hsites : m'.sites.Perm (new ++ m.sites))
    (hnew : (m.queue.hasReceiver = false ∧ c.place = .rejected [.record, .done] ∧ new = [] ∧
        m'.queue.issued = m.queue.issued) ∨
      (m.queue.hasReceiver = true ∧ c.place = .blocked m.queue.issued ∧
        new = [(m.queue.issued, .queued c.record)] ∧ m'.queue.issued = m.queue.issued + 1)) :
    m'.Sound := by
  have hold {j : Nat} {d : Caller} (hd : m.callers[j]? = some d) : m'.callers[j]? = some d := by
    rw [hcallers, List.getElem?_append_left (lt_of_caller hd), hd]
  have hcases {j : Nat} {d : Caller} (hd : m'.callers[j]? = some d) :
      m.callers[j]? = some d ∨ (j = m.callers.length ∧ d = c) := by
    rw [hcallers] at hd
    by_cases hlt : j < m.callers.length
    · rw [List.getElem?_append_left hlt] at hd
      exact .inl hd
    · rw [List.getElem?_append_right (by omega), List.getElem?_singleton] at hd
      split at hd <;> cases hd
      exact .inr ⟨by omega, rfl⟩
  have hmem {x : Nat × Site} : x ∈ m'.sites ↔ x ∈ new ∨ x ∈ m.sites := by
    rw [hsites.mem_iff, List.mem_append]
  have hcalled : ∀ e ∈ [Note.called c.record], e.serial? = some m.callers.length := by
    simp [Note.serial?, hserial]
  have hnone : story m.callers.length m.notes = [] := hi.fresh _ (Nat.le_refl _)
  have hself : story m.callers.length m'.notes = [.called c.record] := by
    rw [hnotes, story_append, hnone, List.nil_append, story_eq_self hcalled]
  have hother {j : Nat} (hne : j ≠ m.callers.length) : story j m'.notes = story j m.notes := by
    rw [hnotes, story_append_of_ne hcalled hne]
  have hnotMem : .called c.record ∉ m.notes := fun h => by
    have hstory := (mem_story (hcalled _ List.mem_cons_self)).mpr h
    rw [hnone] at hstory
    cases hstory
  constructor
  case serial =>
    intro j d hd
    rcases hcases hd with hd | ⟨rfl, rfl⟩
    · exact hi.serial j d hd
    · exact hserial
  case told =>
    intro j d hd
    rcases hcases hd with hd | ⟨rfl, rfl⟩
    · rw [hother (Nat.ne_of_lt (lt_of_caller hd))]
      exact (hi.told j d hd).keep fun ticket site _ hs => hmem.mpr (.inr hs)
    · rw [hself]
      rcases hnew with ⟨-, hp, -, -⟩ | ⟨-, hp, hnew, -⟩
      · simp only [Caller.Told, hp]
        exact .inl ⟨trivial, trivial⟩
      · simp only [Caller.Told, hp]
        exact ⟨.queued d.record, hmem.mpr (.inl (by rw [hnew]; exact List.mem_singleton_self _)),
          rfl, rfl⟩
  case refused =>
    intro j d hd
    rcases hcases hd with hd | ⟨rfl, rfl⟩
    · rw [hnotes, isLate_append (hi.called_mem hd)]
      exact hi.refused j d hd
    · rw [hnotes, isLate_of_notMem hnotMem, ← hi.dropped]
      rcases hnew with ⟨hr, hp, -, -⟩ | ⟨hr, hp, -, -⟩ <;> simp [Caller.IsRefused, hp, hr]
  case fresh =>
    intro j hle
    rw [hcallers, List.length_append, List.length_singleton] at hle
    rw [hother (by omega)]
    exact hi.fresh j (by omega)
  case dropped => exact hi.dropped_append hreceiver hnotes (by simp)
  case nodup =>
    rw [(hsites.map _).nodup_iff]
    rcases hnew with ⟨-, -, rfl, -⟩ | ⟨-, -, rfl, -⟩
    · exact hi.nodup
    · rw [List.singleton_append, List.map_cons, List.nodup_cons]
      refine ⟨fun h => ?_, hi.nodup⟩
      obtain ⟨x, hx, heq⟩ := List.mem_map.mp h
      exact Nat.ne_of_lt (hi.issued x hx) heq
  case issued =>
    intro x hx
    rcases hmem.mp hx with hx | hx
    · rcases hnew with ⟨-, -, rfl, -⟩ | ⟨-, -, rfl, hq⟩
      · cases hx
      · rw [List.mem_singleton.mp hx, hq]
        exact Nat.lt_succ_self _
    · have hlt := hi.issued x hx
      rcases hnew with ⟨-, -, -, hq⟩ | ⟨-, -, -, hq⟩ <;> omega
  case waiting =>
    intro x hx
    rcases hmem.mp hx with hx | hx
    · rcases hnew with ⟨-, -, rfl, -⟩ | ⟨-, hp, rfl, -⟩
      · cases hx
      · rw [List.mem_singleton.mp hx]
        refine ⟨m.callers.length, c, ?_, hp⟩
        rw [hcallers, List.getElem?_concat_length]
    · obtain ⟨j, d, hd, hp⟩ := hi.waiting x hx
      exact ⟨j, d, hold hd, hp⟩
  case unique =>
    -- whoever had a ticket before has an older one than the new caller
    have hnewer {j : Nat} {d : Caller} {ticket : Nat} (hd : m.callers[j]? = some d)
        (hp : d.place = .blocked ticket) (hp' : c.place = .blocked ticket) : False := by
      have htold := hi.told j d hd
      simp only [Caller.Told, hp] at htold
      obtain ⟨site, hs, -⟩ := htold
      have hlt := hi.issued _ hs
      rcases hnew with ⟨-, hc, -, -⟩ | ⟨-, hc, -, -⟩ <;> rw [hc] at hp' <;> cases hp'
      exact Nat.lt_irrefl _ hlt
    intro j k d d' ticket hd hd' hp hp'
    rcases hcases hd with hd | ⟨rfl, rfl⟩ <;> rcases hcases hd' with hd' | ⟨rfl, rfl⟩
    · exact hi.unique j k d d' ticket hd hd' hp hp'
    · exact (hnewer hd hp hp').elim
    · exact (hnewer hd' hp' hp).elim
    · rfl

end Sound

end Handoff.Exchange
