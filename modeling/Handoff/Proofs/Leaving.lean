import Handoff.Producer.Frame
import Handoff.Proofs.Verdict

/-! A producer leaves in one order on all its ways out: the fetcher, the flag, the sender. -/
namespace Handoff

namespace Event

@[simp] def isOfProducer : Event → Bool
  | running | fetching | fetched _ | fetcherDropped .. | terminated | leaving .. | senderDropped =>
    true
  | _ => false

@[simp] def isOfLeaving : Event → Bool
  | fetcherDropped .. | terminated | leaving .. | senderDropped => true
  | _ => false

/-- What is noted of fetches that are answered one after another. -/
def fetches (os : List Outcome) : List Event := os.flatMap fun o => [fetching, fetched o]

@[simp] theorem fetches_append (os more : List Outcome) :
    fetches (os ++ more) = fetches os ++ fetches more := List.flatMap_append

theorem filter_isOfLeaving_fetches (os : List Outcome) : (fetches os).filter isOfLeaving = [] := by
  rw [List.filter_eq_nil_iff]
  intro e he
  obtain ⟨o, -, he⟩ := List.mem_flatMap.mp he
  simp only [List.mem_cons, List.not_mem_nil, or_false] at he
  rcases he with rfl | rfl <;> simp

@[simp] theorem filter_isOfProducer_releasing (rs : List Record) :
    (releasing rs).filter isOfProducer = [] := by
  simp [releasing]

end Event

@[simp] theorem Feed.filter_publish {σ : Type} [Feed σ] (x : Publishing) (f : σ) :
    (publish x f).2.filter Event.isOfProducer = [] := by
  rw [List.filter_eq_nil_iff]
  intro e he
  have hpub := publish_notes x f e he
  cases e <;> simp_all [Event.isPublishing]

theorem Feed.filter_publishAll {σ : Type} [Feed σ] (f : σ) (xs : List Publishing) :
    (publishAll f xs).2.filter Event.isOfProducer = [] := by
  induction xs generalizing f with
  | nil => rfl
  | cons x rest ih => simp [publishAll, ih]

namespace Link

variable {σ : Type}

def own (l : Link σ) : List Event := l.trace.filter Event.isOfProducer

@[simp] theorem own_note (l : Link σ) (es : List Event) :
    (l.note es).own = l.own ++ es.filter Event.isOfProducer := by
  simp [own]

@[simp] theorem own_fed (l : Link σ) (f : σ) (es : List Event) :
    (l.fed f es).own = l.own ++ es.filter Event.isOfProducer := by
  simp [own]

theorem own_publish [Feed σ] (l : Link σ) (x : Publishing) : (l.publish x).own = l.own := by
  simp [publish]

theorem own_outside [Feed σ] (l : Link σ) (label : Bridge.Label) :
    (l.outside label).own = l.own := by
  cases label with
  | raise => simp [outside, raise]
  | wake => rfl
  | publish x => exact l.own_publish x
  | produce | consume | loseConsumer | letGo => rfl

end Link

/-- What is noted of a departure: the fetcher is dropped while the producer counts as running, and
the end of the queue goes last. The drop of a fetcher in peace may raise a panic. -/
def Exit.departure (left : Exit) (onDrop? : Option Payload) (delivered : Nat) : List Event :=
  [.fetcherDropped .running (left.raised? onDrop?), .terminated] ++
    (left.orPanic (left.raised? onDrop?)).farewell delivered ++ [.senderDropped]

theorem Exit.filter_departure (left : Exit) (onDrop? : Option Payload) (n : Nat) :
    (left.departure onDrop? n).filter Event.isOfLeaving = left.departure onDrop? n := by
  cases hexit : left.orPanic (left.raised? onDrop?) with
  | endOfStream | failed report | panicked p =>
    simp [departure, hexit, farewell, List.filter_cons]

namespace Producer

namespace Frame

def looping (delivered : Nat) (notes : List Event) : Frame where
  owners := [(.producer, .fetcher), (.guard, .guard), (.givenLiveness, .share),
    (.givenSender, .sender)]
  delivered := delivered
  notes := notes

/-- The function was left over an answer, and nothing is owned any more. -/
structure IsLeft (left : Exit) (onDrop? : Option Payload) (n : Nat) (es : List Event)
    (f : Frame) : Prop where
  owners : f.owners = []
  liveness : f.liveness = .terminated
  delivered : f.delivered = n
  exit : f.exit = left.orPanic (left.raised? onDrop?)
  notes : f.notes = es ++ left.departure onDrop? n

theorem loop?_looping (n : Nat) (es : List Event) (rs : List Record) (os : List Outcome) :
    (looping n es).loop? (rs.map .record ++ os) =
      (looping (n + rs.length) (es ++ Event.fetches (rs.map .record))).loop? os := by
  induction rs generalizing n es with
  | nil => simp [Event.fetches]
  | cons r rest ih =>
    have hturn : (looping n es).loop? (.record r :: (rest.map .record ++ os)) =
        (looping (n + 1) (es ++ [.fetching, .fetched (.record r)])).loop?
          (rest.map .record ++ os) := rfl
    rw [List.map_cons, List.cons_append, hturn, ih]
    simp [Event.fetches, Nat.add_assoc, Nat.add_comm 1]

variable (n : Nat) (es : List Event) (onDrop? : Option Payload)

/-- A panic in the loop drops all that the frame owns, what was declared last first. -/
theorem isLeft_leave (p : Payload) :
    (({ looping n es with panic? := some p } : Frame).leave onDrop?).IsLeft (.panicked p) onDrop? n
      es := by
  have hleave : ({ looping n es with panic? := some p } : Frame).leave onDrop? =
      { owners := [], liveness := .terminated, delivered := n, panic? := some p
        notes := es ++ [.fetcherDropped .running none] ++ [.terminated] ++ [.senderDropped] } := rfl
  rw [hleave]
  refine ⟨rfl, rfl, rfl, rfl, ?_⟩
  simp [Exit.departure, Exit.raised?, Exit.orPanic, Exit.farewell]

/-- Past the loop the function drops by hand, until the fetcher's panic leaves the rest to the
frame. -/
theorem isLeft_run? {left : Exit} (hl : ∀ p, left ≠ .panicked p) (os : List Outcome) :
    ∃ f, ({ looping n es with exit? := some left } : Frame).run? onDrop? os (body.drop 4) = some f ∧
      f.IsLeft left onDrop? n es := by
  have hraised : left.raised? onDrop? = onDrop? := by
    cases left with
    | panicked p => exact absurd rfl (hl p)
    | endOfStream | failed report => rfl
  cases onDrop? with
  | some p =>
    have hrun : ({ looping n es with exit? := some left } : Frame).run? (some p) os (body.drop 4) =
        some { owners := [], liveness := .terminated, delivered := n, exit? := some left
               panic? := some p
               notes := es ++ [.fetcherDropped .running (some p)] ++ [.terminated] ++
                 [.senderDropped] } := rfl
    have hexit : left.orPanic (some p) = .panicked p := by
      cases left with
      | panicked q => exact absurd rfl (hl q)
      | endOfStream | failed report => rfl
    refine ⟨_, hrun, rfl, rfl, rfl, ?_, ?_⟩
    · rw [hraised, hexit]
      rfl
    · simp [Exit.departure, hraised, hexit, Exit.farewell]
  | none =>
    have hrun : ({ looping n es with exit? := some left } : Frame).run? none os (body.drop 4) =
        some { owners := [], liveness := .terminated, delivered := n, exit? := some left
               notes := es ++ [.fetcherDropped .running none] ++ [.terminated] ++ left.farewell n ++
                 [.senderDropped] } := rfl
    have hexit : left.orPanic none = left := by cases left <;> rfl
    refine ⟨_, hrun, rfl, rfl, rfl, ?_, ?_⟩
    · rw [hraised, hexit]
      rfl
    · simp [Exit.departure, hraised, hexit]

end Frame

theorem isLeft_of_call? (onDrop? : Option Payload) (rs : List Record) {o : Outcome} {left : Exit}
    (ho : o.exit? = some left) (os : List Outcome) :
    ∃ f, call? onDrop? (rs.map .record ++ o :: os) = some f ∧
      f.IsLeft left onDrop? rs.length (.running :: Event.fetches (rs.map .record ++ [o])) := by
  -- Up to the loop the function does the same whatever it is answered.
  have hcall : call? onDrop? (rs.map .record ++ o :: os) =
      ((Frame.looping 0 [.running]).loop? (rs.map .record ++ o :: os)).bind fun f =>
        if f.panic?.isSome then some (f.leave onDrop?)
        else f.run? onDrop? (rs.map .record ++ o :: os) (body.drop 4) := rfl
  have hnotes : [.running] ++ Event.fetches (rs.map .record) ++ [.fetching, .fetched o] =
      .running :: Event.fetches (rs.map .record ++ [o]) := by
    simp [Event.fetches]
  rw [hcall, Frame.loop?_looping, Nat.zero_add, ← hnotes]
  cases o with
  | record r => cases ho
  | panicked p =>
    cases ho
    exact ⟨_, rfl, Frame.isLeft_leave _ _ _ p⟩
  | endMarker | failed report =>
    cases ho
    exact Frame.isLeft_run? _ _ _ (by simp) _

/-- The panic of a fetcher's drop takes the place of the farewell. -/
example : (call? (some .other) [.record ⟨3, 0⟩, .endMarker]).map (·.notes) =
    some [.running, .fetching, .fetched (.record ⟨3, 0⟩), .fetching, .fetched .endMarker,
      .fetcherDropped .running (some .other), .terminated, .senderDropped] := by
  decide

def Place.rest (n : Nat) : Place → List Event
  | marking exit => .terminated :: (exit.farewell n ++ [.senderDropped])
  | releasing exit => exit.farewell n ++ [.senderDropped]
  | ended _ => []
  | starting | fetching | waiting | pushing _ | calling _ | retiring _ | aborted _ => []

def Noted (p : Producer) (es : List Event) : Prop :=
  match p.place with
  | .starting => p.delivered = 0 ∧ es = []
  | .fetching => ∃ rs : List Record, rs.length = p.delivered ∧
      es = .running :: Event.fetches (rs.map .record)
  | .waiting => ∃ rs : List Record, rs.length = p.delivered ∧
      es = .running :: Event.fetches (rs.map .record) ++ [.fetching]
  | .pushing _ | .calling _ => ∃ rs : List Record, rs.length = p.delivered + 1 ∧
      es = .running :: Event.fetches (rs.map .record)
  | .aborted _ => ∃ rs : List Record, es = .running :: Event.fetches (rs.map .record)
  | .retiring exit => ∃ (rs : List Record) (o : Outcome), rs.length = p.delivered ∧
      o.exit? = some exit ∧ es = .running :: Event.fetches (rs.map .record ++ [o])
  | .marking exit | .releasing exit | .ended exit =>
    ∃ (rs : List Record) (o : Outcome) (left : Exit) (onDrop? : Option Payload),
      rs.length = p.delivered ∧ o.exit? = some left ∧
      exit = left.orPanic (left.raised? onDrop?) ∧
      es ++ p.place.rest p.delivered = .running :: Event.fetches (rs.map .record ++ [o]) ++
        left.departure onDrop? p.delivered

variable {σ : Type} [Feed σ] {p p' : Producer} {l l' : Link σ}

theorem Noted.afterFetch {n : Nat} {rs : List Record} (hn : rs.length = n) (o : Outcome) :
    ({ place := .afterFetch o, delivered := n } : Producer).Noted
      (.running :: Event.fetches (rs.map .record ++ [o])) := by
  cases o with
  | record r => exact ⟨rs ++ [r], by simp [hn], by simp⟩
  | endMarker | failed report | panicked payload => exact ⟨rs, _, hn, rfl, rfl⟩

theorem Noted.produce (hi : p.Noted l.own) (ht : p.Tidy l) (hs : p.Step l p' l') :
    p'.Noted l'.own := by
  cases hs with
  | start hp =>
    simp only [Noted, hp] at hi
    exact ⟨[], by simp [hi.1], by simp [hi.2, Event.fetches, List.filter_cons]⟩
  | enterWaiting hp hf =>
    simp only [Noted, hp] at hi
    obtain ⟨rs, hn, hes⟩ := hi
    exact ⟨rs, hn, by simp [hes, List.filter_cons]⟩
  | @enterAnswered _ o _ hp hf =>
    simp only [Noted, hp] at hi
    obtain ⟨rs, hn, hes⟩ := hi
    have hnoted := Noted.afterFetch hn o
    simpa [hes, Event.fetches, List.filter_cons] using hnoted
  | @receive _ o _ hp hf =>
    simp only [Noted, hp] at hi
    obtain ⟨rs, hn, hes⟩ := hi
    have hnoted := Noted.afterFetch hn o
    simpa [hes, Event.fetches, List.filter_cons] using hnoted
  | pushRefused hp hq =>
    simp only [Noted, hp] at hi
    obtain ⟨rs, hn, hes⟩ := hi
    exact ⟨rs, by simp [hes]⟩
  | push hp hq | collectHandled hp hq =>
    simp only [Noted, hp] at hi
    exact hi
  | @collectFailed _ e _ hp hq =>
    simp only [Noted, hp] at hi
    obtain ⟨rs, hn, hes⟩ := hi
    have hown : (l.note [.dispatchFailed e]).own = l.own := by simp
    exact ⟨rs, hown.trans hes⟩
  | @retire exit _ _ hp hf =>
    simp only [Noted, hp] at hi
    obtain ⟨rs, o, hn, ho, hes⟩ := hi
    -- The flag is lowered in the step after this one.
    have hl : l.liveness = .running := by rw [ht.liveness, hp]; rfl
    refine ⟨rs, o, exit, Feed.retirePanic? l.feed, hn, ho, rfl, ?_⟩
    simp [hes, hl, Place.rest, Exit.departure, List.filter_cons]
  | mark hp =>
    simp only [Noted, hp] at hi
    obtain ⟨rs, o, left, onDrop?, hn, ho, he, hes⟩ := hi
    refine ⟨rs, o, left, onDrop?, hn, ho, he, ?_⟩
    change (l.note [.terminated]).own ++ _ = _
    simpa [Place.rest, List.filter_cons] using hes
  | @release exit hp =>
    simp only [Noted, hp] at hi
    obtain ⟨rs, o, left, onDrop?, hn, ho, he, hes⟩ := hi
    refine ⟨rs, o, left, onDrop?, hn, ho, he, ?_⟩
    have hfarewell : (exit.farewell p.delivered).filter Event.isOfProducer =
        exit.farewell p.delivered := by
      cases exit <;> rfl
    change (l.note (exit.farewell p.delivered ++ [.senderDropped])).own ++ _ = _
    simpa [Place.rest, hfarewell, List.filter_cons] using hes

/-- Some call of the function notes this first. -/
def IsBegun (es : List Event) : Prop :=
  ∃ (onDrop? : Option Payload) (os : List Outcome) (f : Frame),
    call? onDrop? os = some f ∧ es <+: f.notes

theorem isBegun_of_departure (rs : List Record) {o : Outcome} {left : Exit}
    (ho : o.exit? = some left) (onDrop? : Option Payload) {es : List Event}
    (hes : es <+: .running :: Event.fetches (rs.map .record ++ [o]) ++
      left.departure onDrop? rs.length) : IsBegun es := by
  obtain ⟨f, hf, hleft⟩ := isLeft_of_call? onDrop? rs ho []
  exact ⟨onDrop?, _, f, hf, hleft.notes ▸ hes⟩

/-- A producer in his loop might be told next that it is over. -/
theorem isBegun_of_fetches (rs : List Record) {es : List Event} (hes : es <+: [.fetching]) :
    IsBegun (.running :: Event.fetches (rs.map .record) ++ es) := by
  obtain ⟨rest, hrest⟩ := hes
  refine isBegun_of_departure rs (o := .endMarker) rfl none
    ⟨rest ++ .fetched .endMarker :: Exit.endOfStream.departure none rs.length, ?_⟩
  rw [List.append_assoc, ← List.append_assoc es, hrest]
  simp [Event.fetches]

theorem Noted.begins {es : List Event} (hi : p.Noted es) : IsBegun es := by
  cases hp : p.place with
  | starting =>
    simp only [Noted, hp] at hi
    exact isBegun_of_departure [] (o := .endMarker) rfl none (hi.2 ▸ List.nil_prefix)
  | fetching | pushing r | calling ticket =>
    simp only [Noted, hp] at hi
    obtain ⟨rs, -, rfl⟩ := hi
    simpa using isBegun_of_fetches rs List.nil_prefix
  | waiting =>
    simp only [Noted, hp] at hi
    obtain ⟨rs, -, rfl⟩ := hi
    exact isBegun_of_fetches rs List.prefix_rfl
  | aborted e =>
    simp only [Noted, hp] at hi
    obtain ⟨rs, rfl⟩ := hi
    simpa using isBegun_of_fetches rs List.nil_prefix
  | retiring exit =>
    simp only [Noted, hp] at hi
    obtain ⟨rs, o, -, ho, rfl⟩ := hi
    exact isBegun_of_departure rs ho none (List.prefix_append _ _)
  | marking exit | releasing exit | ended exit =>
    simp only [Noted, hp] at hi
    obtain ⟨rs, o, left, onDrop?, hn, ho, -, hes⟩ := hi
    exact isBegun_of_departure rs ho onDrop? (hn.symm ▸ hes ▸ List.prefix_append _ _)

theorem Noted.ends {es : List Event} (hi : p.Noted es) {exit : Exit} (hp : p.exit? = some exit) :
    ∃ (rs : List Record) (o : Outcome) (left : Exit) (onDrop? : Option Payload) (f : Frame),
      o.exit? = some left ∧ call? onDrop? (rs.map .record ++ [o]) = some f ∧
      f.IsLeft left onDrop? p.delivered (.running :: Event.fetches (rs.map .record ++ [o])) ∧
      f.exit = exit ∧ es = f.notes := by
  simp only [Noted, place_of_exit? hp, Place.rest, List.append_nil] at hi
  obtain ⟨rs, o, left, onDrop?, hn, ho, he, hes⟩ := hi
  obtain ⟨f, hf, hleft⟩ := isLeft_of_call? onDrop? rs ho []
  exact ⟨rs, o, left, onDrop?, f, ho, hf, hn ▸ hleft, hleft.exit.trans he.symm,
    by rw [hes, hleft.notes, hn]⟩

theorem Step.rank_of_isOut (hs : p.Step l p' l') (hp : p.place.isOut) :
    p'.place.rank + 1 = p.place.rank := by
  cases hs with
  | retire hp' hf | mark hp' | release hp' => simp [hp', Place.rank]
  | _ => simp_all

theorem rank_le_of_isOut (hp : p.place.isOut) : p.place.rank ≤ 3 := by
  cases hplace : p.place <;> simp_all [Place.rank]

theorem abort?_of_isOut (p : Producer) (hp : p.place.isOut) : p.abort? = none := by
  cases hplace : p.place <;> simp_all [abort?]

/-- Out of his loop a producer waits for nobody. -/
theorem isSome_step?_of_isOut (p : Producer) (hp : p.place.isOut) (l : Link σ) :
    p.exit?.isSome ∨ (p.step? l).isSome := by
  cases hplace : p.place with
  | retiring exit | marking exit | releasing exit => exact .inr (by simp [step?, hplace])
  | ended exit => exact .inl (by simp [exit?, hplace])
  | starting | fetching | waiting | pushing r | calling ticket | aborted e => simp [hplace] at hp

end Producer

namespace Consumer

variable {σ : Type} [Feed σ] {h : Handler} {exit? : Option (Exit × Nat)} {c c' : Consumer}
  {l l' : Link σ}

theorem own_leftover (call : Call) (isHeld : Bool) :
    (leftover call isHeld).filter Event.isOfProducer = [] := by
  cases isHeld <;> rfl

theorem own_act (c : Consumer) (l : Link σ) (call : Call) (isHeld : Bool) (rest : List Act)
    (a : Act) : (c.act l call isHeld rest a).2.own = l.own := by
  cases a with
  | stop => exact l.own_outside .raise
  | finishStop => exact l.own_outside .wake
  | keep | setAside => rfl
  | releaseKept => simp [act]
  | panic p => simp [act, own_leftover]
  | publish x => exact l.own_publish x

theorem Step.own (hs : c.Step h exit? l c' l') : l'.own = l.own := by
  cases hs with
  | act hp => exact c.own_act l _ _ _ _
  | @take call q hp hq =>
    change (l.note [.handling call.record]).own = l.own
    simp
  | finish hp => simp [own_leftover]
  | judge hp he => simp
  | @drop part rest hp =>
    cases part with
    | context => rfl
    | handler => simp [dropPart]
    | receiver =>
      change (l.note (Event.releasing l.queue.dropReceiver.2)).own = l.own
      simp
  | begin | drained | answer | unwind | join | giveUp | resolve | leave => rfl

end Consumer

namespace Bridge

variable {σ : Type} [Feed σ] {h : Handler} {b b' : Bridge σ} {labels : List Label}

theorem own_of_step {label : Label} (hl : label ≠ .produce) (hs : b.step? h label = some b') :
    b'.link.own = b.link.own := by
  cases (step?_eq_some_iff.mp hs).2 with
  | produce => exact (hl rfl).elim
  | consume hside => exact hside.own
  | raise => exact b.link.own_outside .raise
  | wake => exact b.link.own_outside .wake
  | publish x => exact b.link.own_publish x
  | loseConsumer | letGo => rfl

theorem own_of_run (hl : .produce ∉ labels) (hr : b.run? h labels = some b') :
    b'.link.own = b.link.own := by
  induction labels generalizing b with
  | nil =>
    cases hr
    rfl
  | cons label rest ih =>
    obtain ⟨m, hs, hr⟩ := Option.bind_eq_some_iff.mp hr
    obtain ⟨hne, hrest⟩ := List.ne_and_not_mem_of_not_mem_cons hl
    exact (ih hrest hr).trans (own_of_step hne.symm hs)

theorem own_callerAct (b : Bridge σ) (a : CallerAct) : (b.callerAct h a).link.own = b.link.own := by
  rcases b.callerAct_cases (h := h) a with ⟨labels, hl, hr⟩ | heq | heq
  · exact own_of_run (fun hm => by cases hl _ hm) hr
  · simp [heq, note]
  · simp [heq, note]

theorem own_callerActs (b : Bridge σ) (acts : List CallerAct) :
    (b.callerActs h acts).link.own = b.link.own := by
  induction acts generalizing b with
  | nil => rfl
  | cons a rest ih => exact (ih _).trans (own_callerAct b a)

theorem rank_of_run {p : Producer} (hp : b.producer = some p) (hout : p.place.isOut)
    (hr : b.run? h labels = some b') :
    ∃ p', b'.producer = some p' ∧ p'.place.isOut ∧
      p'.place.rank + labels.count .produce = p.place.rank := by
  induction labels generalizing b p with
  | nil =>
    cases hr
    exact ⟨p, hp, hout, rfl⟩
  | cons label rest ih =>
    obtain ⟨m, hs, hr⟩ := Option.bind_eq_some_iff.mp hr
    have hother (hl : label ≠ .produce) (hm : m.producer = some p) :
        ∃ p', b'.producer = some p' ∧ p'.place.isOut ∧
          p'.place.rank + (label :: rest).count .produce = p.place.rank := by
      rw [List.count_cons_of_ne hl]
      exact ih hm hout hr
    cases (step?_eq_some_iff.mp hs).2 with
    | @produce q q' l' hq hside =>
      cases hp.symm.trans hq
      obtain ⟨p', hp', hout', hrank⟩ := ih rfl (hside.of_isOut hout).1 hr
      refine ⟨p', hp', hout', ?_⟩
      rw [List.count_cons_self, ← Nat.add_assoc, hrank]
      exact hside.rank_of_isOut hout
    | consume | raise | wake | publish | loseConsumer | letGo => exact hother (by simp) hp

theorem invariant_noted (h : Handler) :
    Invariant h (fun _ => True) (fun p _ (l : Link σ) => p.Noted l.own ∧ p.Tidy l) where
  produce _ hi hs := ⟨hi.1.produce hi.2 hs, hi.2.produce hs⟩
  consume _ hi _ hs := ⟨hs.own ▸ hi.1, hi.2.frame hs.frame⟩
  aside {label _ _ l} _ _ hi :=
    ⟨(l.own_outside label).symm ▸ hi.1, hi.2.frame (Link.aside_outside l label).frame⟩
  lose _ hi _ := hi
  letGo _ hi := hi

/-- A producer leaves as his function says, in every order of steps. -/
structure LeavesInOrder (h : Handler) (b : Bridge σ) : Prop where
  /-- He has noted what a call of his function notes first. -/
  begins : Producer.IsBegun b.link.own
  /-- At his end he has noted all of it: the answers, then his departure, each thing once. -/
  ends : ∀ exit n, b.exit? = some (exit, n) →
    ∃ (rs : List Record) (o : Outcome) (left : Exit) (onDrop? : Option Payload)
      (f : Producer.Frame),
      o.exit? = some left ∧ Producer.call? onDrop? (rs.map .record ++ [o]) = some f ∧
      f.IsLeft left onDrop? n (.running :: Event.fetches (rs.map .record ++ [o])) ∧
      f.exit = exit ∧ b.link.own = f.notes
  /-- After an answer that is no record he takes at most three steps, for which he waits for nobody,
  and has ended. -/
  performs : (∃ o ∈ (Tally.ofTrace b.link.trace).outcomes, o.record? = none) →
    ∀ more b', b.run? h more = some b' → more.count .produce ≤ 3 ∧
      (b'.exit?.isSome ∨ (b'.step? h .produce).isSome)
  /-- Without a sender the flag is down and the fetcher is gone. -/
  closed : b.link.queue.hasSender = false → b.link.liveness = .terminated ∧
    ∃ left onDrop? n, b.link.own.filter Event.isOfLeaving = Exit.departure left onDrop? n
  /-- A consumer who goes on to finalize has seen the queue closed. -/
  observed : b.consumer.place.isClosing → b.link.queue.hasSender = false

end Bridge

theorem Usage.own_begin {σ : Type} [Feed σ] (u : Usage σ) (taken : UInt32)
    (hc : (u.begin taken).failure? = none) : (u.begin taken).bridge.link.own = [] := by
  rcases hpub : Feed.publishAll u.source.feed (u.before.filterMap CallerAct.early?) with ⟨f, es⟩
  have hes : es.filter Event.isOfProducer = [] := by
    simpa [hpub] using Feed.filter_publishAll u.source.feed (u.before.filterMap CallerAct.early?)
  simp only [begin, hpub] at hc ⊢
  cases hf : (({ u.source with feed := f } : Source σ).create u.config taken es).failure? with
  | some failure => simp [hf] at hc
  | none =>
    have hcreated : (({ u.source with feed := f } : Source σ).create u.config taken
        es).bridge.link.own = [] := by
      rw [Source.create_eq _ _ _ _ hf]
      simp [Link.own, hes]
    dsimp only
    have hletGo (b : Bridge σ) : ((b.step? u.handler .letGo).getD b).link.own = b.link.own := by
      cases hs : b.step? u.handler .letGo with
      | none => rfl
      | some b' => exact Bridge.own_of_step (by simp) hs
    split
    · rw [hletGo, Bridge.own_callerActs, hcreated]
    · rw [Bridge.own_callerActs, hcreated]

namespace Bridge

variable {σ : Type} [Feed σ] {h : Handler} {b b' : Bridge σ} {labels : List Label}

/-- On every way out of the loop, in every order of steps and whatever handler there is, the
producer drops his fetcher, lowers his flag and lets go of the queue. -/
theorem leavesInOrder_of_run (u : Usage σ) (taken : UInt32) (hc : (u.begin taken).failure? = none)
    (hr : (u.begin taken).bridge.run? u.handler labels = some b) : b.LeavesInOrder u.handler := by
  obtain ⟨p₀, hp₀, hf⟩ := u.fresh_begin taken hc
  have hnoted₀ : p₀.Noted (u.begin taken).bridge.link.own := by
    rw [u.own_begin taken hc, hf.producer]
    exact ⟨rfl, rfl⟩
  obtain ⟨p, hp, hnoted, htidy⟩ := (invariant_noted u.handler).run (fun _ _ => trivial) hr
    ⟨p₀, hp₀, hnoted₀, hf.informed.1⟩
  obtain ⟨p', hp', htold, -⟩ := (invariant_told u.handler).run (fun _ _ => trivial) hr
    ⟨p₀, hp₀, hf.told, hf.informed.1⟩
  obtain ⟨p'', hp'', -, hinf⟩ := (invariant_informed u.handler _).run (fun _ _ => trivial) hr
    ⟨p₀, hp₀, hf.informed⟩
  cases hp.symm.trans hp'
  cases hp.symm.trans hp''
  have hsender : b.link.queue.hasSender = false ↔ p.exit?.isSome := by
    rw [htidy.sender]
    cases p.exit? <;> simp
  constructor
  case begins => exact hnoted.begins
  case ends =>
    intro exit n he
    rw [exit?_of_producer hp, Option.map_eq_some_iff] at he
    obtain ⟨_, he, hn⟩ := he
    cases hn
    exact hnoted.ends he
  case performs =>
    rintro ⟨o, ho, hrec⟩ more b' hm
    have hout := htold.isOut ho hrec
    obtain ⟨q, hq, hout', hrank⟩ := rank_of_run hp hout hm
    refine ⟨?_, ?_⟩
    · have hle := Producer.rank_le_of_isOut hout
      omega
    · have hdead : b'.abort? = none := (abort?_of_producer hq).trans (q.abort?_of_isOut hout')
      rcases q.isSome_step?_of_isOut hout' b'.link with he | hstep
      · exact .inl (by simpa [exit?_of_producer hq] using he)
      · obtain ⟨next, hstep⟩ := Option.isSome_iff_exists.mp hstep
        right
        rw [step?_eq_some_iff.mpr ⟨hdead, .produce hq (Producer.step?_eq_some_iff.mp hstep)⟩]
        rfl
  case closed =>
    intro hs
    obtain ⟨exit, he⟩ := Option.isSome_iff_exists.mp (hsender.mp hs)
    obtain ⟨rs, o, left, onDrop?, f, -, -, hleft, -, hown⟩ := hnoted.ends he
    refine ⟨?_, left, onDrop?, p.delivered, ?_⟩
    · rw [htidy.liveness, Producer.place_of_exit? he]
      rfl
    · rw [hown, hleft.notes, List.filter_append, List.filter_cons_of_neg (by simp),
        Event.filter_isOfLeaving_fetches, Exit.filter_departure, List.nil_append]
  case observed => exact fun hcl => hsender.mpr (hinf.closing hcl)

end Bridge

/-- The source fails after one record, and its fetcher does not go in peace. -/
def Usage.lostTwice : Usage Script where
  source :=
    { feed := { steps := [.yield 3, .fail ⟨"lost", []⟩], retirePanic? := some (.fixed "late") } }
  style := .script

def Usage.lostTwiceLabels : List Bridge.Label :=
  .consume :: (List.replicate 4 .produce ++ List.replicate 3 .consume ++
    List.replicate 6 .produce ++ [.consume])

theorem Bridge.leavesInOrder_lostTwice :
    ∃ b, (Usage.lostTwice.begin 0).bridge.run? Usage.lostTwice.handler
        Usage.lostTwiceLabels = some b ∧
      (b.consumer.place = .awaiting ∧ b.exit? = some (.panicked (.fixed "late"), 1) ∧
        b.link.own.filter Event.isOfLeaving =
          [.fetcherDropped .running (some (.fixed "late")), .terminated, .senderDropped]) ∧
      b.LeavesInOrder Usage.lostTwice.handler := by
  have hc : (Usage.lostTwice.begin 0).failure? = none := by decide +kernel
  have hrun : ((Usage.lostTwice.begin 0).bridge.run? Usage.lostTwice.handler
      Usage.lostTwiceLabels).map (fun b => decide (b.consumer.place = .awaiting ∧
        b.exit? = some (.panicked (.fixed "late"), 1) ∧ b.link.own.filter Event.isOfLeaving =
          [.fetcherDropped .running (some (.fixed "late")), .terminated, .senderDropped])) =
      some true := by decide +kernel
  obtain ⟨b, hr, hb⟩ := Option.map_eq_some_iff.mp hrun
  exact ⟨b, hr, of_decide_eq_true hb, leavesInOrder_of_run _ 0 hc hr⟩

end Handoff
