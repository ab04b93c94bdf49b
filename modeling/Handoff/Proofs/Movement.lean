import Handoff.Proofs.Runs
import Handoff.Proofs.Tickets

/-! Every step of a queue begins one call, lets one caller go on, or moves calls from their places
to the next ones, so that what holds of all calls at first holds in every run. -/
namespace Handoff.Exchange

variable {m m' : Exchange}

theorem sites_of_perm {h : Hand} {hs rest : List Hand} (hp : hs.Perm (h :: rest)) :
    (sites { m with hands := hs }).Perm
      ((h.call.ticket, .held h.call.record h.stage) :: sites { m with hands := rest }) := by
  have hhands := hp.map fun h : Hand => (h.call.ticket, Site.held h.call.record h.stage)
  refine ((hhands.append_left _).append_right _).trans ?_
  exact List.perm_middle.append_right _

def others (m : Exchange) (h : Hand) : List (Nat × Site) :=
  sites { m with hands := m.hands.erase h }

theorem sites_of_mem {h : Hand} (hh : h ∈ m.hands) :
    m.sites.Perm ((h.call.ticket, .held h.call.record h.stage) :: m.others h) :=
  sites_of_perm (List.perm_cons_erase hh)

theorem held_mem_sites {h : Hand} (hh : h ∈ m.hands) :
    (h.call.ticket, .held h.call.record h.stage) ∈ m.sites :=
  (sites_of_mem hh).mem_iff.mpr List.mem_cons_self

theorem sites_stage (m : Exchange) (h h' : Hand) :
    (sites { m with hands := m.hands.erase h ++ [h'] }).Perm
      ((h'.call.ticket, .held h'.call.record h'.stage) :: m.others h) :=
  sites_of_perm (List.perm_append_singleton h' (m.hands.erase h))

theorem sites_answer (m : Exchange) (h : Hand) (ticket : Nat) (a : Answer) :
    (sites { m with queue := m.queue.answer ticket a, hands := m.hands.erase h }).Perm
      ((ticket, .answered a) :: m.others h) := by
  simp only [sites, CallQueue.answer, List.map_append, List.map_cons, List.map_nil]
  rw [← List.append_assoc]
  exact List.perm_append_singleton _ _

theorem run?_eq_foldlM (m : Exchange) (labels : List Label) :
    m.run? labels = labels.foldlM step? m :=
  eq_foldlM (fun _ => rfl) (fun _ _ _ => rfl) m labels

theorem run?_append {m'' : Exchange} {labels more : List Label} (hr : m.run? labels = some m')
    (hm : m'.run? more = some m'') : m.run? (labels ++ more) = some m'' := by
  rw [run?_eq_foldlM] at hr hm ⊢
  rw [List.foldlM_append, hr]
  exact hm

theorem run?_singleton {label : Label} (hs : m.step? label = some m') :
    m.run? [label] = some m' := by
  rw [run?, hs]
  rfl

theorem Hand.leftover_cases (h : Hand) (keeps : Bool) :
    h.leftover keeps = [] ∨ h.leftover keeps = [.released h.call.record] := by
  cases keeps
  · exact .inr rfl
  · exact .inl rfl

theorem Hand.serial?_leftover (h : Hand) (keeps : Bool) {e : Note}
    (he : e.serial? = some h.call.record.serial) :
    ∀ x ∈ h.leftover keeps ++ [e], x.serial? = some h.call.record.serial := by
  rcases h.leftover_cases keeps with heq | heq
  · simpa [heq] using he
  · simpa [heq, Note.serial?] using he

namespace Sound

theorem restage (hi : m.Sound) {h : Hand} (hh : h ∈ m.hands) {stage : Stage} {es : List Note}
    (ht : ∀ r before, (Site.held h.call.record h.stage).Tells r before →
      (∀ e ∈ es, e.serial? = some r.serial) ∧
        (Site.held h.call.record stage).Tells r (before ++ es)) :
    Sound { m with hands := m.hands.erase h ++ [⟨h.call, stage⟩], notes := m.notes ++ es } :=
  hi.move (sites_of_mem hh) (m.sites_stage h ⟨h.call, stage⟩) rfl rfl rfl rfl ht

theorem reply (hi : m.Sound) {h : Hand} (hh : h ∈ m.hands) {a : Answer}
    (ht : ∀ r before, (Site.held h.call.record h.stage).Tells r before →
      (Site.answered a).Tells r before) :
    Sound { m with queue := m.queue.answer h.call.ticket a, hands := m.hands.erase h } := by
  have hsame : m.notes = m.notes ++ [] := (List.append_nil _).symm
  refine hi.move (sites_of_mem hh) (m.sites_answer h h.call.ticket a) rfl rfl rfl hsame
    fun r before hb => ⟨by simp, ?_⟩
  rw [List.append_nil]
  exact ht r before hb

/-- What happens to a call that was taken happens to it alone. -/
theorem hand (hi : m.Sound) {h : Hand} {deed : Hand.Deed} (hs : m.step? (.hand h deed) = some m') :
    m'.Sound := by
  simp only [step?, Option.ite_none_right_eq_some, Option.map_eq_some_iff] at hs
  obtain ⟨hh, ⟨stage?, answer?, es⟩, hstep, rfl⟩ := hs
  cases deed with
  | invoke =>
    simp only [Hand.step?] at hstep
    split at hstep <;> cases hstep
    next hst =>
      refine hi.restage hh fun r before hb => ?_
      rw [hst] at hb
      obtain ⟨rfl, rfl⟩ := hb
      exact ⟨by simp [Note.serial?], rfl, rfl⟩
  | finish keeps =>
    simp only [Hand.step?] at hstep
    split at hstep <;> cases hstep
    next hst =>
      refine hi.restage hh fun r before hb => ?_
      rw [hst] at hb
      obtain ⟨rfl, rfl⟩ := hb
      refine ⟨?_, rfl, ?_⟩
      · exact h.serial?_leftover keeps rfl
      · rw [← List.append_assoc]
        exact .handled (h.leftover_cases keeps)
  | panic keeps =>
    simp only [Hand.step?] at hstep
    split at hstep <;> cases hstep
    next hst =>
      refine hi.restage hh fun r before hb => ?_
      rw [hst] at hb
      obtain ⟨rfl, rfl⟩ := hb
      refine ⟨?_, rfl, .inr ⟨rfl, ?_⟩⟩
      · exact h.serial?_leftover keeps rfl
      · rw [← List.append_assoc]
        exact .panicked (h.leftover_cases keeps)
  | answer =>
    simp only [Hand.step?] at hstep
    split at hstep <;> cases hstep
    next hst =>
      have hnext := hi.reply hh (a := .handled) fun r before hb => by
        rw [hst] at hb
        exact ⟨by simp, hb.2⟩
      simpa using hnext
  | drop =>
    simp only [Hand.step?] at hstep
    split at hstep <;> cases hstep
    next hst =>
      refine hi.restage hh fun r before hb => ?_
      rw [hst] at hb
      obtain ⟨rfl, rfl⟩ := hb
      exact ⟨by simp [Note.serial?], rfl, .inl ⟨rfl, rfl⟩⟩
  | fall =>
    simp only [Hand.step?] at hstep
    split at hstep
    next rest hst =>
      cases hstep
      refine hi.restage hh fun r before hb => ?_
      rw [hst] at hb
      obtain ⟨rfl, ⟨hrest, rfl⟩ | ⟨hrest, -⟩⟩ := hb
      · cases hrest
        exact ⟨by simp [Note.serial?], rfl, .inr ⟨rfl, .discarded⟩⟩
      · cases hrest
    next rest hst =>
      obtain ⟨j, c, -, -, htells⟩ := hi.exists_caller (held_mem_sites hh)
      rw [hst] at htells
      obtain ⟨-, ⟨hrest, -⟩ | ⟨hrest, -⟩⟩ := htells <;> cases hrest
      cases hstep
      have hnext := hi.reply hh (a := .failed .handlerAborted) fun r before hb => by
        rw [hst] at hb
        obtain ⟨-, ⟨hrest, -⟩ | ⟨-, hends⟩⟩ := hb
        · cases hrest
        · exact ⟨by simp, hends⟩
      simpa using hnext
    next => cases hstep

theorem dequeue (hi : m.Sound) {c : Call} {rest : List Call} (hq : m.queue.calls = c :: rest)
    {stage : Stage} {es : List Note} (hes : ∀ e ∈ es, e.serial? = some c.record.serial)
    (ht : (Site.held c.record stage).Tells c.record (.called c.record :: es)) :
    Sound { m with
      queue := { m.queue with calls := rest }
      hands := m.hands ++ [⟨c, stage⟩]
      notes := m.notes ++ es } := by
  have hsites : m.sites = (c.ticket, .queued c.record) :: sites { m with
      queue := { m.queue with calls := rest } } := by
    rw [sites, hq]
    rfl
  have hsites' := sites_of_perm (m := { m with queue := { m.queue with calls := rest } })
    (List.perm_append_singleton ⟨c, stage⟩ m.hands)
  refine hi.move (List.Perm.of_eq hsites) hsites' rfl rfl rfl rfl fun r before hb => ?_
  obtain ⟨rfl, rfl⟩ := hb
  exact ⟨hes, ht⟩

theorem close (hi : m.Sound) :
    Sound { m with
      queue := { m.queue with hasReceiver := false }
      notes := m.notes ++ [.receiverDropped] } := by
  have hstory (i : Nat) : story i (m.notes ++ [.receiverDropped]) = story i m.notes := by
    have hnil : story i [.receiverDropped] = [] := story_eq_nil (by simp [Note.serial?])
    rw [story_append, hnil, List.append_nil]
  refine ⟨hi.serial, fun i c hc => ?_, fun i c hc => ?_, fun i hle => ?_, ?_, hi.nodup, hi.issued,
    hi.waiting, hi.unique⟩
  · rw [hstory]
    exact hi.told i c hc
  · rw [isLate_append (hi.called_mem hc)]
    exact hi.refused i c hc
  · rw [hstory]
    exact hi.fresh i hle
  · exact iff_of_true rfl (List.mem_append_right _ (List.mem_singleton_self _))

theorem discard (hi : m.Sound) (calls : List Call) (hq : m.queue.calls = calls) :
    Sound { m with
      queue := { m.queue with calls := [] }
      hands := m.hands ++ calls.map fun c => ⟨c, .falling Call.fields⟩
      notes := m.notes ++ calls.map fun c => .discarded c.record } := by
  induction calls generalizing m with
  | nil =>
    have hsame : m.queue = { m.queue with calls := [] } := by rw [← hq]
    rw [← hsame, List.map_nil, List.map_nil, List.append_nil, List.append_nil]
    exact hi
  | cons c rest ih =>
    have htells : (Site.held c.record (.falling Call.fields)).Tells c.record
        [.called c.record, .discarded c.record] := ⟨rfl, .inl ⟨rfl, rfl⟩⟩
    have hnext := ih (hi.dequeue hq (by simp [Note.serial?]) htells) rfl
    rw [List.append_assoc, List.append_assoc] at hnext
    exact hnext

/-- A ticket that was collected has no place any more, and all others keep theirs. -/
theorem collect (hi : m.Sound) {ticket : Nat} {a : Answer} {q : CallQueue}
    (hq : m.queue.collect? ticket = some (a, q)) :
    (ticket, .answered a) ∈ m.sites ∧ (sites { m with queue := q }).Sublist m.sites ∧
      ∀ x, x ∈ sites { m with queue := q } ↔ x ∈ m.sites ∧ x.1 ≠ ticket := by
  have hanswer : (ticket, .answered a) ∈ m.sites :=
    List.mem_append_right _ (List.mem_map.mpr ⟨_, CallQueue.mem_answers_of_collect? hq, rfl⟩)
  have hother {x : Nat × Site} (hx : x ∈ m.sites) (hne : x.2 ≠ .answered a) : x.1 ≠ ticket := by
    rintro rfl
    exact hne (hi.site_unique hx hanswer)
  rw [CallQueue.collect?_eq_some hq]
  refine ⟨hanswer, (List.filter_sublist.map _).append_left _, fun x => ⟨fun hx => ?_, ?_⟩⟩
  · rcases List.mem_append.mp hx with hx | hx
    · have hmem : x ∈ m.sites := List.mem_append_left _ hx
      refine ⟨hmem, hother hmem ?_⟩
      rcases List.mem_append.mp hx with hx | hx <;> obtain ⟨y, -, rfl⟩ := List.mem_map.mp hx <;>
        simp
    · obtain ⟨y, hy, rfl⟩ := List.mem_map.mp hx
      obtain ⟨hy, hne⟩ := List.mem_filter.mp hy
      exact ⟨List.mem_append_right _ (List.mem_map_of_mem hy), by simpa using hne⟩
  · rintro ⟨hx, hne⟩
    rcases List.mem_append.mp hx with hx | hx
    · exact List.mem_append_left _ hx
    · obtain ⟨y, hy, rfl⟩ := List.mem_map.mp hx
      exact List.mem_append_right _
        (List.mem_map_of_mem (List.mem_filter.mpr ⟨hy, by simpa using hne⟩))

theorem caller (hi : m.Sound) {i : Nat} (hs : m.step? (.caller i) = some m') : m'.Sound := by
  obtain ⟨c, hc, hs⟩ := Option.bind_eq_some_iff.mp hs
  obtain ⟨⟨c', q, rs⟩, hstep, hs⟩ := Option.bind_eq_some_iff.mp hs
  cases hs
  have hserial := hi.serial i c hc
  have htold := hi.told i c hc
  cases hp : c.place with
  | rejected fields =>
    have hplace (ticket : Nat) : c.place ≠ .blocked ticket := by simp [hp]
    have hnext {c' : Caller} {es : List Note} (hrecord : c'.record = c.record)
        (hes : ∀ e ∈ es, e.serial? = some i) (hplace' : ∀ ticket, c'.place ≠ .blocked ticket)
        (htold' : c'.Told m.sites (story i m.notes ++ es)) (hrefused : c'.IsRefused) :
        Sound { m with callers := m.callers.set i c', notes := m.notes ++ es } :=
      hi.goOn hc rfl hrecord rfl rfl rfl hes hplace' hi.nodup
        (fun x => (and_iff_left (hplace x.1)).symm) htold'
        (iff_of_true hrefused (by simp [Caller.IsRefused, hp]))
    simp only [Caller.Told, hp] at htold
    rcases htold with ⟨rfl, hstory⟩ | ⟨rfl | rfl, hends⟩
    · simp only [Caller.step?, hp] at hstep
      cases hstep
      refine hnext rfl ?_ (by simp) (.inr ⟨.inl rfl, ?_⟩) trivial
      · simp [Caller.answer?, Note.serial?, hserial]
      · rw [hstory]
        exact .refused
    · simp only [Caller.step?, hp] at hstep
      cases hstep
      refine hnext rfl ?_ (by simp) (.inr ⟨.inr rfl, ?_⟩) trivial
      · simp [Caller.answer?]
      · simpa [Caller.answer?] using hends
    · simp only [Caller.step?, hp] at hstep
      cases hstep
      refine hnext rfl ?_ (by simp) ⟨_, rfl, hends⟩ rfl
      simp [Caller.answer?, Note.serial?, hserial]
  | blocked ticket =>
    simp only [Caller.step?, hp, Option.map_eq_some_iff] at hstep
    obtain ⟨⟨a, q'⟩, hcollect, heq⟩ := hstep
    cases heq
    obtain ⟨hanswer, hsub, hmem⟩ := hi.collect hcollect
    simp only [Caller.Told, hp] at htold
    obtain ⟨site, hsite, htells⟩ := htold
    rw [hi.site_unique hsite hanswer] at htells
    obtain ⟨hne, hends⟩ := htells
    refine hi.goOn hc rfl rfl ?_ ?_ rfl ?_ (by simp) ((hsub.map _).nodup hi.nodup) (fun x => ?_)
      ⟨_, rfl, hends⟩ ?_
    · rw [CallQueue.collect?_eq_some hcollect]
    · rw [CallQueue.collect?_eq_some hcollect]
    · simp [Caller.answer?, Note.serial?, hserial]
    · rw [hp]
      refine (hmem x).trans (and_congr_right fun _ => ?_)
      simp [eq_comm]
    · simp [Caller.IsRefused, hp, hne]
  | returned a => simp [Caller.step?, hp] at hstep

/-- A push finds the receiver there, or the record comes back. -/
theorem call (hi : m.Sound) {id : UInt32} (hs : m.step? (.call id) = some m') : m'.Sound := by
  simp only [step?, Option.ite_none_right_eq_some, Option.some.injEq] at hs
  obtain ⟨-, rfl⟩ := hs
  cases hr : m.queue.hasReceiver with
  | true =>
    rw [Caller.enter_of_hasReceiver hr]
    refine hi.enter rfl rfl rfl rfl ?_ (.inr ⟨hr, rfl, rfl, rfl⟩)
    simp only [sites, List.map_append, List.map_cons, List.map_nil]
    have hcalls := List.perm_append_singleton
      (m.queue.issued, Site.queued ⟨id, m.callers.length⟩)
      (m.queue.calls.map fun c => (c.ticket, Site.queued c.record))
    exact (hcalls.append_right _).append_right _
  | false =>
    rw [Caller.enter_of_not_hasReceiver hr]
    exact hi.enter rfl rfl rfl rfl (.refl _) (.inl ⟨hr, rfl, rfl, rfl⟩)

theorem step {label : Label} (hi : m.Sound) (hs : m.step? label = some m') : m'.Sound := by
  cases label with
  | call id => exact hi.call hs
  | caller i => exact hi.caller hs
  | release =>
    simp only [step?, Option.ite_none_right_eq_some, Option.some.injEq] at hs
    obtain ⟨-, rfl⟩ := hs
    exact ⟨hi.serial, hi.told, hi.refused, hi.fresh, hi.dropped, hi.nodup, hi.issued, hi.waiting,
      hi.unique⟩
  | receive =>
    simp only [step?, Option.ite_none_right_eq_some, Option.map_eq_some_iff] at hs
    obtain ⟨-, ⟨c, q⟩, hq, rfl⟩ := hs
    obtain ⟨rest, hcalls, rfl⟩ := CallQueue.take?_eq_some hq
    have htells : (Site.held c.record .taken).Tells c.record [.called c.record] := ⟨rfl, rfl⟩
    have hnext := hi.dequeue hcalls (by simp) htells
    rw [List.append_nil] at hnext
    exact hnext
  | dropReceiver =>
    simp only [step?, Option.ite_none_right_eq_some, Option.some.injEq] at hs
    obtain ⟨-, rfl⟩ := hs
    have hnext := hi.close.discard m.queue.calls rfl
    rw [List.append_assoc] at hnext
    exact hnext
  | hand h deed => exact hi.hand hs

theorem run {labels : List Label} (hi : m.Sound) (hr : m.run? labels = some m') : m'.Sound := by
  rw [run?_eq_foldlM] at hr
  exact foldlM_keeps (fun _ _ _ _ hi hs => hi.step hs) hi hr

end Sound

theorem sound_start : Sound {} where
  serial i c hc := by cases hc
  told i c hc := by cases hc
  refused i c hc := by cases hc
  fresh i _ := rfl
  dropped := by simp
  nodup := List.nodup_nil
  issued x hx := by cases hx
  waiting x hx := by cases hx
  unique i j c c' ticket hc := by cases hc

end Handoff.Exchange
