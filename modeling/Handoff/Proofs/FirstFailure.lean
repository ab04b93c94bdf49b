import Handoff.Producer.Dispatch
import Handoff.Proofs.Leaving

/-! The first call that fails is the last thing a producer does: he neither goes on nor leaves. -/
namespace Handoff.Producer

def Poll.delivering (r : Record) : Poll := ⟨.record r, .handled⟩

/-- Polls deliver one record after another, up to one that is told of no record or fails. -/
theorem Poll.split (xs : List Poll) :
    (∃ rs : List Record, xs = rs.map delivering) ∨
      ∃ (rs : List Record) (x : Poll) (rest : List Poll), xs = rs.map delivering ++ x :: rest ∧
        ((∃ left, x.outcome.exit? = some left) ∨ ∃ r e, x = ⟨.record r, .failed e⟩) := by
  induction xs with
  | nil => exact .inl ⟨[], rfl⟩
  | cons x rest ih =>
    obtain ⟨o, a⟩ := x
    cases o with
    | record r =>
      cases a with
      | handled =>
        rcases ih with ⟨rs, rfl⟩ | ⟨rs, x, more, rfl, hx⟩
        · exact .inl ⟨r :: rs, rfl⟩
        · exact .inr ⟨r :: rs, x, more, rfl, hx⟩
      | failed e => exact .inr ⟨[], _, rest, rfl, .inr ⟨r, e, rfl⟩⟩
    | endMarker | failed _ | panicked _ => exact .inr ⟨[], _, rest, rfl, .inl ⟨_, rfl⟩⟩

namespace Frame

def atFailure (rs : List Record) (r : Record) (e : DispatchError) : Frame :=
  looping rs.length
    (.running :: Event.fetches (rs.map .record ++ [.record r]) ++ [.dispatchFailed e])

def outOfLoop (rs : List Record) (o : Outcome) : Frame :=
  let f := looping rs.length (.running :: Event.fetches (rs.map .record ++ [o]))
  match o with
  | .record _ => f
  | .endMarker => { f with exit? := some .endOfStream }
  | .failed report => { f with exit? := some (.failed report) }
  | .panicked p => { f with panic? := some p }

theorem pollAll?_looping (n : Nat) (es : List Event) (rs : List Record) (xs : List Poll) :
    (looping n es).pollAll? (rs.map Poll.delivering ++ xs) =
      (looping (n + rs.length) (es ++ Event.fetches (rs.map .record))).pollAll? xs := by
  induction rs generalizing n es with
  | nil => simp [Event.fetches]
  | cons r rest ih =>
    have hturn : (looping n es).pollAll? (.delivering r :: (rest.map Poll.delivering ++ xs)) =
        (looping (n + 1) (es ++ [.fetching, .fetched (.record r)])).pollAll?
          (rest.map Poll.delivering ++ xs) := rfl
    rw [List.map_cons, List.cons_append, hturn, ih]
    simp [Event.fetches, Nat.add_assoc, Nat.add_comm 1]

variable (rs : List Record) (rest : List Poll)

theorem pollAll?_delivering : (looping 0 [.running]).pollAll? (rs.map Poll.delivering) = none := by
  have hloop := pollAll?_looping 0 [.running] rs []
  rw [List.append_nil] at hloop
  rw [hloop, pollAll?]

theorem pollAll?_failed (r : Record) (e : DispatchError) :
    (looping 0 [.running]).pollAll? (rs.map Poll.delivering ++ ⟨.record r, .failed e⟩ :: rest) =
      some (.error (e, atFailure rs r e)) := by
  rw [pollAll?_looping]
  simp [pollAll?, poll, note, atFailure, looping, Event.fetches]

theorem pollAll?_exit {x : Poll} {left : Exit} (hx : x.outcome.exit? = some left) :
    (looping 0 [.running]).pollAll? (rs.map Poll.delivering ++ x :: rest) =
      some (.ok (outOfLoop rs x.outcome)) := by
  rw [pollAll?_looping]
  obtain ⟨o, a⟩ := x
  cases o with
  | record r => cases hx
  | endMarker | failed report | panicked p =>
    simp [pollAll?, poll, note, outOfLoop, looping, Event.fetches]

/-- Where there is no loop nobody asks what polls are answered. -/
theorem execOver?_eq_exec? (onDrop? : Option Payload) (xs : List Poll) (os : List Outcome)
    (f : Frame) {s : Statement} (hs : s ≠ .loop) :
    f.execOver? onDrop? xs s = (f.exec? onDrop? os s).map .ok := by
  cases s with
  | loop => exact (hs rfl).elim
  | start | declare | move | drop | bidFarewell => rfl

theorem runOver?_eq_run? (onDrop? : Option Payload) (xs : List Poll) (os : List Outcome)
    {ss : List Statement} (hss : .loop ∉ ss) (f : Frame) :
    f.runOver? onDrop? xs ss = (f.run? onDrop? os ss).map .ok := by
  induction ss generalizing f with
  | nil => rfl
  | cons s rest ih =>
    obtain ⟨hs, hrest⟩ := List.ne_and_not_mem_of_not_mem_cons hss
    rw [runOver?, run?, execOver?_eq_exec? onDrop? xs os f hs.symm]
    cases hnext : f.exec? onDrop? os s with
    | none => rfl
    | some next =>
      by_cases hp : next.panic?.isSome = true
      · simp [hp]
      · simp [hp, ih hrest]

theorem isLeft_runOver? (n : Nat) (es : List Event) (onDrop? : Option Payload) (xs : List Poll)
    {left : Exit} (hl : ∀ p, left ≠ .panicked p) :
    ∃ f, ({ looping n es with exit? := some left } : Frame).runOver? onDrop? xs (body.drop 4) =
      some (.ok f) ∧ f.IsLeft left onDrop? n es := by
  obtain ⟨f, hf, hleft⟩ := isLeft_run? n es onDrop? hl []
  refine ⟨f, ?_, hleft⟩
  rw [runOver?_eq_run? onDrop? xs [] (by decide), hf]
  rfl

end Frame

open Producer.Frame

/-- Up to the loop the function does the same whatever its polls are answered, and an abort in the
loop is the end of it. -/
theorem callOver?_eq (onDrop? : Option Payload) (xs : List Poll) :
    callOver? onDrop? xs = match (looping 0 [.running]).pollAll? xs with
      | none => none
      | some (.error aborted) => some (.error aborted)
      | some (.ok f) =>
        if f.panic?.isSome then some (.ok (f.leave onDrop?))
        else f.runOver? onDrop? xs (body.drop 4) := rfl

theorem isLeft_of_callOver? (onDrop? : Option Payload) (rs : List Record) {x : Poll} {left : Exit}
    (hx : x.outcome.exit? = some left) (rest : List Poll) :
    ∃ f, callOver? onDrop? (rs.map Poll.delivering ++ x :: rest) = some (.ok f) ∧
      f.IsLeft left onDrop? rs.length
        (.running :: Event.fetches (rs.map .record ++ [x.outcome])) := by
  rw [callOver?_eq, pollAll?_exit rs rest hx]
  obtain ⟨o, a⟩ := x
  cases o with
  | record r => cases hx
  | panicked p =>
    cases hx
    exact ⟨_, rfl, isLeft_leave _ _ _ p⟩
  | endMarker | failed report =>
    cases hx
    exact isLeft_runOver? _ _ onDrop? _ (by simp)

theorem callOver?_delivering (onDrop? : Option Payload) (rs : List Record) :
    callOver? onDrop? (rs.map Poll.delivering) = none := by
  rw [callOver?_eq, pollAll?_delivering]

theorem callOver?_failed (onDrop? : Option Payload) (rs : List Record) (r : Record)
    (e : DispatchError) (rest : List Poll) :
    callOver? onDrop? (rs.map Poll.delivering ++ ⟨.record r, .failed e⟩ :: rest) =
      some (.error (e, atFailure rs r e)) := by
  rw [callOver?_eq, pollAll?_failed]

theorem callOver?_cases (onDrop? : Option Payload) (xs : List Poll) :
    (callOver? onDrop? xs = none ∧ ∃ rs : List Record, xs = rs.map Poll.delivering) ∨
    (∃ (rs : List Record) (r : Record) (e : DispatchError) (rest : List Poll),
      callOver? onDrop? xs = some (.error (e, atFailure rs r e)) ∧
      xs = rs.map Poll.delivering ++ ⟨.record r, .failed e⟩ :: rest) ∨
    ∃ (rs : List Record) (x : Poll) (left : Exit) (rest : List Poll) (f : Frame),
      callOver? onDrop? xs = some (.ok f) ∧ xs = rs.map Poll.delivering ++ x :: rest ∧
      x.outcome.exit? = some left ∧
      f.IsLeft left onDrop? rs.length
        (.running :: Event.fetches (rs.map .record ++ [x.outcome])) := by
  rcases Poll.split xs with ⟨rs, rfl⟩ | ⟨rs, x, rest, rfl, ⟨left, hx⟩ | ⟨r, e, rfl⟩⟩
  · exact .inl ⟨callOver?_delivering onDrop? rs, rs, rfl⟩
  · obtain ⟨f, hf, hleft⟩ := isLeft_of_callOver? onDrop? rs hx rest
    exact .inr (.inr ⟨rs, x, left, rest, f, hf, rfl, hx, hleft⟩)
  · exact .inr (.inl ⟨rs, r, e, rest, callOver?_failed onDrop? rs r e rest, rfl⟩)

theorem isSome_exit?_of_pollAll? {xs : List Poll} {f : Frame}
    (hf : (looping 0 [.running]).pollAll? xs = some (.ok f)) (hp : f.panic? = none) :
    f.exit?.isSome := by
  rcases Poll.split xs with ⟨rs, rfl⟩ | ⟨rs, ⟨o, a⟩, rest, rfl, ⟨left, hx⟩ | ⟨r, e, hx⟩⟩
  · rw [pollAll?_delivering] at hf
    cases hf
  · rw [pollAll?_exit rs rest hx] at hf
    cases hf
    cases o with
    | record r => cases hx
    | endMarker | failed report => rfl
    | panicked p => cases hp
  · rw [hx, pollAll?_failed] at hf
    cases hf

/-- What becomes of a call of the function, by what its polls are answered. -/
structure EndsOver (onDrop? : Option Payload) (xs : List Poll) : Prop where
  /-- It is in its loop as long as nothing but records came and none of its calls failed. -/
  loops : callOver? onDrop? xs = none ↔ ∃ rs : List Record, xs = rs.map Poll.delivering
  /-- The process dies in it over the first call that fails, -/
  aborts : ∀ e f, callOver? onDrop? xs = some (.error (e, f)) ↔
    ∃ (rs : List Record) (r : Record) (rest : List Poll),
      xs = rs.map Poll.delivering ++ ⟨.record r, .failed e⟩ :: rest ∧ f = atFailure rs r e
  /-- with all that it owned before. -/
  kept : ∀ e f, callOver? onDrop? xs = some (.error (e, f)) →
    f.owners.map (·.2) = [.fetcher, .guard, .share, .sender] ∧ f.liveness = .running ∧
      f.exit? = none ∧ f.panic? = none
  /-- Otherwise it is left over the first fetch that brought no record. -/
  leaves : ∀ f, callOver? onDrop? xs = some (.ok f) →
    ∃ (rs : List Record) (x : Poll) (left : Exit) (rest : List Poll),
      xs = rs.map Poll.delivering ++ x :: rest ∧ x.outcome.exit? = some left ∧
      f.IsLeft left onDrop? rs.length (.running :: Event.fetches (rs.map .record ++ [x.outcome]))
  /-- How it is left was stored in the loop unless it unwinds: what it would be taken for otherwise
  is never needed. -/
  stored : ∀ f, (looping 0 [.running]).pollAll? xs = some (.ok f) → f.panic? = none →
    f.exit?.isSome

theorem endsOver (onDrop? : Option Payload) (xs : List Poll) : EndsOver onDrop? xs := by
  have haborts (e : DispatchError) (f : Frame) :
      callOver? onDrop? xs = some (.error (e, f)) ↔
        ∃ (rs : List Record) (r : Record) (rest : List Poll),
          xs = rs.map Poll.delivering ++ ⟨.record r, .failed e⟩ :: rest ∧ f = atFailure rs r e := by
    constructor
    · intro hf
      rcases callOver?_cases onDrop? xs with ⟨hc, -⟩ | ⟨rs, r, e', rest, hc, hxs⟩ |
        ⟨rs, x, left, rest, f', hc, -⟩ <;> cases hf.symm.trans hc
      exact ⟨rs, r, rest, hxs, rfl⟩
    · rintro ⟨rs, r, rest, rfl, rfl⟩
      exact callOver?_failed onDrop? rs r e rest
  refine ⟨⟨fun hnone => ?_, ?_⟩, haborts, fun e f hf => ?_, fun f hf => ?_,
    fun f hf hp => isSome_exit?_of_pollAll? hf hp⟩
  · rcases callOver?_cases onDrop? xs with ⟨-, hrs⟩ | ⟨rs, r, e, rest, hc, -⟩ |
      ⟨rs, x, left, rest, f, hc, -⟩
    · exact hrs
    · cases hnone.symm.trans hc
    · cases hnone.symm.trans hc
  · rintro ⟨rs, rfl⟩
    exact callOver?_delivering onDrop? rs
  · obtain ⟨rs, r, rest, -, rfl⟩ := (haborts e f).mp hf
    exact ⟨rfl, rfl, rfl, rfl⟩
  · rcases callOver?_cases onDrop? xs with ⟨hc, -⟩ | ⟨rs, r, e, rest, hc, -⟩ |
      ⟨rs, x, left, rest, f', hc, hxs, hx, hleft⟩ <;> cases hf.symm.trans hc
    exact ⟨rs, x, left, rest, hxs, hx, hleft⟩

namespace Exposed

variable {σ : Type}

abbrev tally (m : Exposed σ) : Tally := .ofTrace m.link.trace

/-- What the polls were answered so far, the last one perhaps to its fetch alone. -/
def polls (m : Exposed σ) : List Poll :=
  m.tally.outcomes.zipWith Poll.mk (m.answers ++ [.handled])

/-- How far a producer is with its records: fetches begun, answers to them, calls made and returned,
each beside those of the records that are counted. -/
structure Has (m : Exposed σ) (begun : Nat) (last : List Outcome) (calls : Nat)
    (told : List Answer) : Prop where
  entries : m.tally.entries = m.producer.delivered + begun
  outcomes : m.tally.outcomes = m.pushes.map .record ++ last
  pushes : m.pushes.length = m.producer.delivered + calls
  answers : m.answers = List.replicate m.producer.delivered .handled ++ told

def Polling (m : Exposed σ) : Prop :=
  match m.producer.place with
  | .starting | .fetching => m.Has 0 [] 0 []
  | .waiting => m.Has 1 [] 0 []
  | .pushing r => m.Has 1 [.record r] 0 []
  | .calling _ => m.Has 1 [] 1 []
  | .aborted e => m.Has 1 [] 1 [.failed e]
  | .retiring exit => ∃ o : Outcome, o.exit? = some exit ∧ m.Has 1 [o] 0 []
  | .marking exit | .releasing exit | .ended exit => ∃ (o : Outcome) (left : Exit)
      (onDrop? : Option Payload), o.exit? = some left ∧
        exit = left.orPanic (left.raised? onDrop?) ∧ m.Has 1 [o] 0 []

variable {m m' : Exposed σ}

/-- Neither a fetch nor a call has begun or come to its end meanwhile. -/
structure Idles (m m' : Exposed σ) : Prop where
  entries : m'.tally.entries = m.tally.entries
  outcomes : m'.tally.outcomes = m.tally.outcomes
  pushes : m'.pushes = m.pushes
  answers : m'.answers = m.answers
  delivered : m'.producer.delivered = m.producer.delivered

theorem Idles.refl (m : Exposed σ) : m.Idles m := ⟨rfl, rfl, rfl, rfl, rfl⟩

theorem Idles.trans {m'' : Exposed σ} (h : m.Idles m') (h' : m'.Idles m'') : m.Idles m'' where
  entries := h'.entries.trans h.entries
  outcomes := h'.outcomes.trans h.outcomes
  pushes := h'.pushes.trans h.pushes
  answers := h'.answers.trans h.answers
  delivered := h'.delivered.trans h.delivered

theorem Has.idle {n k : Nat} {last : List Outcome} {told : List Answer} (hi : m.Has n last k told)
    (h : m.Idles m') : m'.Has n last k told where
  entries := by rw [h.entries, h.delivered, hi.entries]
  outcomes := by rw [h.outcomes, h.pushes, hi.outcomes]
  pushes := by rw [h.pushes, h.delivered, hi.pushes]
  answers := by rw [h.answers, h.delivered, hi.answers]

theorem Polling.idle (hi : m.Polling) (hp : m'.producer = m.producer) (h : m.Idles m') :
    m'.Polling := by
  cases hplace : m.producer.place with
  | retiring exit =>
    simp only [Polling, hp, hplace] at hi ⊢
    obtain ⟨o, ho, hi⟩ := hi
    exact ⟨o, ho, hi.idle h⟩
  | marking exit | releasing exit | ended exit =>
    simp only [Polling, hp, hplace] at hi ⊢
    obtain ⟨o, left, onDrop?, ho, he, hi⟩ := hi
    exact ⟨o, left, onDrop?, ho, he, hi.idle h⟩
  | starting | fetching | waiting | pushing r | calling ticket | aborted e =>
    simp only [Polling, hp, hplace] at hi ⊢
    exact hi.idle h

variable [Feed σ] {label : Label σ}

theorem step?_produce (hs : m.step? .produce = some m') :
    ∃ p l, m.producer.Step m.link p l ∧ m' =
      { producer := p
        link := l
        pushes := m.pushes ++ m.producer.place.pushed?.toList
        answers := m.answers ++ (m.producer.place.answered? p.place).toList } := by
  obtain ⟨⟨p, l⟩, hstep, rfl⟩ := Option.map_eq_some_iff.mp hs
  exact ⟨p, l, step?_eq_some_iff.mp hstep, rfl⟩

theorem idles_world {feed : σ} {calls : List Call} {answers : List (Nat × Answer)}
    {hasReceiver : Bool} (hs : m.step? (.world feed calls answers hasReceiver) = some m') :
    m'.producer = m.producer ∧ m.Idles m' ∧ m.link.Frame m'.link := by
  cases hs
  exact ⟨rfl, ⟨rfl, rfl, rfl, rfl, rfl⟩, rfl, rfl, rfl, rfl, rfl, List.prefix_rfl⟩

omit [Feed σ] in
theorem Has.afterFetch {o : Outcome} (hi : m.Has 1 [o] 0 [])
    (hp : m.producer.place = .afterFetch o) : m.Polling := by
  cases o with
  | record r =>
    simp only [Polling, hp, Place.afterFetch]
    exact hi
  | endMarker | failed report | panicked p =>
    simp only [Polling, hp, Place.afterFetch]
    exact ⟨_, rfl, hi⟩

/-- A step moves a producer to the next place and takes him as far as he is there. -/
theorem polling_produce (hi : m.Polling) (hs : m.step? .produce = some m') : m'.Polling := by
  obtain ⟨p, l, hstep, rfl⟩ := step?_produce hs
  cases hstep with
  | start hp | enterWaiting hp _ | pushRefused hp _ | push hp _ | collectHandled hp _
  | collectFailed hp _ =>
    simp only [Polling, hp] at hi
    refine ⟨?_, ?_, ?_, ?_⟩
    · simpa [tally] using hi.entries
    · simpa [tally, hp, Place.pushed?] using hi.outcomes
    · simpa [hp, Place.pushed?] using hi.pushes
    · simpa [hp, Place.answered?, List.replicate_succ'] using hi.answers
  | @enterAnswered _ o _ hp _ | @receive _ o _ hp _ =>
    simp only [Polling, hp] at hi
    refine Has.afterFetch (o := o) ⟨?_, ?_, ?_, ?_⟩ rfl
    · simpa [tally] using hi.entries
    · simpa [tally, hp, Place.pushed?] using hi.outcomes
    · simpa [hp, Place.pushed?] using hi.pushes
    · cases o <;> simpa [hp, Place.answered?, Place.afterFetch] using hi.answers
  | @retire exit _ _ hp _ =>
    simp only [Polling, hp] at hi
    obtain ⟨o, ho, hi⟩ := hi
    refine ⟨o, exit, Feed.retirePanic? m.link.feed, ho, rfl, ?_, ?_, ?_, ?_⟩
    · simpa [tally] using hi.entries
    · simpa [tally, hp, Place.pushed?] using hi.outcomes
    · simpa [hp, Place.pushed?] using hi.pushes
    · simpa [hp, Place.answered?] using hi.answers
  | mark hp | release hp =>
    simp only [Polling, hp] at hi
    obtain ⟨o, left, onDrop?, ho, he, hi⟩ := hi
    refine ⟨o, left, onDrop?, ho, he, ?_, ?_, ?_, ?_⟩
    · simpa [tally] using hi.entries
    · simpa [tally, hp, Place.pushed?] using hi.outcomes
    · simpa [hp, Place.pushed?] using hi.pushes
    · simpa [hp, Place.answered?] using hi.answers

theorem polling_step (hi : m.Polling) (hs : m.step? label = some m') : m'.Polling := by
  cases label with
  | produce => exact polling_produce hi hs
  | world feed calls answers hasReceiver =>
    obtain ⟨hp, hidle, -⟩ := idles_world hs
    exact hi.idle hp hidle

theorem tidy_step (hi : m.producer.Tidy m.link) (hs : m.step? label = some m') :
    m'.producer.Tidy m'.link := by
  cases label with
  | produce =>
    obtain ⟨p, l, hstep, rfl⟩ := step?_produce hs
    exact hi.produce hstep
  | world feed calls answers hasReceiver =>
    obtain ⟨hp, -, hframe⟩ := idles_world hs
    rw [hp]
    exact hi.frame hframe

theorem run?_eq_foldlM (m : Exposed σ) (labels : List (Label σ)) :
    m.run? labels = labels.foldlM step? m :=
  eq_foldlM (fun _ => rfl) (fun _ _ _ => rfl) m labels

theorem polling_run {labels : List (Label σ)} (hi : m.Polling) (ht : m.producer.Tidy m.link)
    (hr : m.run? labels = some m') : m'.Polling ∧ m'.producer.Tidy m'.link := by
  rw [run?_eq_foldlM] at hr
  exact foldlM_keeps (P := fun m : Exposed σ => m.Polling ∧ m.producer.Tidy m.link)
    (fun _ _ _ _ ha hs => ⟨polling_step ha.1 hs, tidy_step ha.2 hs⟩) ⟨hi, ht⟩ hr

omit [Feed σ] in
theorem polling_start (feed : σ) :
    (start feed).Polling ∧ (start feed).producer.Tidy (start feed).link := by
  refine ⟨⟨rfl, rfl, rfl, rfl⟩, rfl, rfl, fun hp => ?_, fun _ => rfl⟩
  cases hp

theorem dead_step (ha : m.producer.abort?.isSome) (hs : m.step? label = some m') :
    m'.producer = m.producer ∧ m.Idles m' := by
  cases label with
  | produce =>
    obtain ⟨p, l, hstep, -⟩ := step?_produce hs
    cases hstep <;> simp_all [abort?]
  | world feed calls answers hasReceiver =>
    obtain ⟨hp, hidle, -⟩ := idles_world hs
    exact ⟨hp, hidle⟩

theorem dead_run {labels : List (Label σ)} (ha : m.producer.abort?.isSome)
    (hr : m.run? labels = some m') : m'.producer = m.producer ∧ m.Idles m' := by
  rw [run?_eq_foldlM] at hr
  refine foldlM_keeps (P := fun m' : Exposed σ => m'.producer = m.producer ∧ m.Idles m')
    (fun a b label _ hkept hs => ?_) ⟨rfl, .refl m⟩ hr
  obtain ⟨hp, hidle⟩ := hkept
  obtain ⟨hp', hidle'⟩ := dead_step (by rwa [hp]) hs
  exact ⟨hp'.trans hp, hidle.trans hidle'⟩

theorem out_step (ho : m.producer.place.isOut) (hs : m.step? label = some m') :
    m'.producer.place.isOut ∧ m.Idles m' := by
  cases label with
  | produce =>
    obtain ⟨p, l, hstep, rfl⟩ := step?_produce hs
    cases hstep with
    | retire hp _ | mark hp | release hp =>
      refine ⟨rfl, ?_, ?_, ?_, ?_, rfl⟩
      · simp [tally]
      · simp [tally]
      · simp [hp, Place.pushed?]
      · simp [hp, Place.answered?]
    | _ => simp_all
  | world feed calls answers hasReceiver =>
    obtain ⟨hp, hidle, -⟩ := idles_world hs
    exact ⟨hp ▸ ho, hidle⟩

theorem out_run {labels : List (Label σ)} (ho : m.producer.place.isOut)
    (hr : m.run? labels = some m') : m'.producer.place.isOut ∧ m.Idles m' := by
  rw [run?_eq_foldlM] at hr
  refine foldlM_keeps (P := fun m' : Exposed σ => m'.producer.place.isOut ∧ m.Idles m')
    (fun a b label _ hkept hs => ?_) ⟨ho, .refl m⟩ hr
  obtain ⟨hout, hidle⟩ := hkept
  obtain ⟨hout', hidle'⟩ := out_step hout hs
  exact ⟨hout', hidle.trans hidle'⟩

omit [Feed σ] in
theorem zipWith_poll (rs : List Record) (o : Outcome) (a : Answer) (more : List Answer) :
    (rs.map Outcome.record ++ [o]).zipWith Poll.mk
      (List.replicate rs.length .handled ++ a :: more) = rs.map Poll.delivering ++ [⟨o, a⟩] := by
  induction rs with
  | nil => rfl
  | cons r rest ih =>
    rw [List.map_cons, List.length_cons, List.replicate_succ, List.cons_append, List.cons_append,
      List.zipWith_cons_cons, ih]
    rfl

/-- What a producer has done so far in a world that may fail his calls at any time. -/
structure StopsAtFailure (m : Exposed σ) : Prop where
  /-- The process has died over an error if and only if a call has returned it, -/
  aborts : ∀ e, m.producer.abort? = some e ↔ .failed e ∈ m.answers
  /-- the first one that did not succeed; only those before it are counted. -/
  first : m.answers = List.replicate m.producer.delivered .handled ++
    (m.producer.abort?.map .failed).toList
  uncounted : m.producer.abort?.isSome →
    m.pushes.length = m.producer.delivered + 1 ∧ m.tally.entries = m.pushes.length
  /-- A call for which there is no receiver fails, and so does one that is aborted. -/
  refused : ∀ r, m.producer.place = .pushing r → m.link.queue.hasReceiver = false →
    ∃ m', m.step? .produce = some m' ∧ m'.producer.abort? = some .consumerGone
  failed : ∀ ticket e q, m.producer.place = .calling ticket →
    m.link.queue.collect? ticket = some (.failed e, q) →
      ∃ m', m.step? .produce = some m' ∧ m'.producer.abort? = some e
  /-- From then on he does nothing at all, -/
  final : m.producer.abort?.isSome → ∀ more m', m.run? more = some m' →
    m'.producer = m.producer ∧ m.Idles m'
  /-- not even leave. -/
  kept : m.producer.abort?.isSome → m.producer.exit? = none ∧ m.link.queue.hasSender = true ∧
    m.link.liveness = .running ∧ m.tally.retirements = []
  /-- Out of his loop he has fetched once more than he has pushed, and the last answer was no
  record. -/
  fetches : m.producer.place.isOut → m.tally.entries = m.pushes.length + 1 ∧
    ∃ o : Outcome, o.record? = none ∧ m.tally.outcomes = m.pushes.map .record ++ [o]
  last : (∃ o ∈ m.tally.outcomes, o.record? = none) → m.producer.place.isOut ∧
    ∀ more m', m.run? more = some m' → m'.producer.place.isOut ∧ m.Idles m'
  /-- Over the same answers the function dies of the same error or ends with the same exit. -/
  dies : ∀ e onDrop? rest, m.producer.abort? = some e →
    ∃ f, callOver? onDrop? (m.polls ++ rest) = some (.error (e, f)) ∧
      f.delivered = m.producer.delivered
  ends : ∀ exit rest, m.producer.exit? = some exit →
    ∃ onDrop? f, callOver? onDrop? (m.polls ++ rest) = some (.ok f) ∧ f.exit = exit ∧
      f.delivered = m.producer.delivered

omit [Feed σ] in
theorem Polling.aborted {e : DispatchError} (hi : m.Polling) (he : m.producer.abort? = some e) :
    m.Has 1 [] 1 [.failed e] := by
  unfold abort? at he
  split at he
  next hp =>
    cases he
    simpa only [Polling, hp] using hi
  next => cases he

omit [Feed σ] in
theorem Polling.out (hi : m.Polling) (ho : m.producer.place.isOut) :
    ∃ o : Outcome, o.record? = none ∧ m.Has 1 [o] 0 [] := by
  have hnone {o : Outcome} {left : Exit} (h : o.exit? = some left) : o.record? = none := by
    cases o <;> first | rfl | cases h
  cases hp : m.producer.place with
  | retiring exit =>
    simp only [Polling, hp] at hi
    obtain ⟨o, h, hi⟩ := hi
    exact ⟨o, hnone h, hi⟩
  | marking exit | releasing exit | ended exit =>
    simp only [Polling, hp] at hi
    obtain ⟨o, left, onDrop?, h, -, hi⟩ := hi
    exact ⟨o, hnone h, hi⟩
  | starting | fetching | waiting | pushing r | calling ticket | aborted e =>
    rw [hp] at ho
    cases ho

omit [Feed σ] in
theorem Polling.answers (hi : m.Polling) :
    m.answers = List.replicate m.producer.delivered .handled ++
      (m.producer.abort?.map .failed).toList := by
  cases ha : m.producer.abort? with
  | some e => exact (hi.aborted ha).answers
  | none =>
    cases hp : m.producer.place with
    | starting | fetching | waiting | pushing r | calling ticket =>
      simp only [Polling, hp] at hi
      exact hi.answers
    | retiring exit | marking exit | releasing exit | ended exit =>
      obtain ⟨o, -, hi⟩ := hi.out (by rw [hp]; rfl)
      exact hi.answers
    | aborted e => simp [abort?, hp] at ha

omit [Feed σ] in
theorem Polling.isOut_of_mem (hi : m.Polling) {o : Outcome} (ho : o ∈ m.tally.outcomes)
    (hr : o.record? = none) : m.producer.place.isOut := by
  have hrecords {last : List Outcome} (hlast : ∀ x ∈ last, x.record? ≠ none)
      (h : m.tally.outcomes = m.pushes.map .record ++ last) : False := by
    rw [h, List.mem_append, List.mem_map] at ho
    rcases ho with ⟨r, -, rfl⟩ | ho
    · cases hr
    · exact hlast o ho hr
  cases hp : m.producer.place with
  | retiring exit | marking exit | releasing exit | ended exit => rfl
  | starting | fetching | waiting | pushing r | calling ticket | aborted e =>
    simp only [Polling, hp] at hi
    exact (hrecords (by simp) hi.outcomes).elim

omit [Feed σ] in
theorem Polling.dies {e : DispatchError} (hi : m.Polling) (he : m.producer.abort? = some e)
    (onDrop? : Option Payload) (rest : List Poll) :
    ∃ f, callOver? onDrop? (m.polls ++ rest) = some (.error (e, f)) ∧
      f.delivered = m.producer.delivered := by
  obtain ⟨-, houtcomes, hpushes, hanswers⟩ := hi.aborted he
  rcases m.pushes.eq_nil_or_concat with hnil | ⟨rs, r, hrs⟩
  · rw [hnil] at hpushes
    cases hpushes
  · rw [List.concat_eq_append] at hrs
    rw [hrs, List.length_append, List.length_singleton, Nat.add_right_cancel_iff] at hpushes
    have hpolls : m.polls = rs.map Poll.delivering ++ [⟨.record r, .failed e⟩] := by
      rw [polls, houtcomes, hanswers, ← hpushes, List.append_nil, hrs, List.map_append,
        List.append_assoc]
      exact zipWith_poll rs (.record r) (.failed e) [.handled]
    refine ⟨atFailure rs r e, ?_, hpushes⟩
    rw [hpolls, List.append_assoc]
    exact callOver?_failed onDrop? rs r e rest

omit [Feed σ] in
theorem Polling.ends {exit : Exit} (hi : m.Polling) (he : m.producer.exit? = some exit)
    (rest : List Poll) :
    ∃ onDrop? f, callOver? onDrop? (m.polls ++ rest) = some (.ok f) ∧ f.exit = exit ∧
      f.delivered = m.producer.delivered := by
  have hp := place_of_exit? he
  simp only [Polling, hp] at hi
  obtain ⟨o, left, onDrop?, ho, rfl, -, houtcomes, hpushes, hanswers⟩ := hi
  have hpolls : m.polls = m.pushes.map Poll.delivering ++ [⟨o, .handled⟩] := by
    rw [polls, houtcomes, hanswers, List.append_nil, ← Nat.add_zero m.producer.delivered, ← hpushes]
    exact zipWith_poll m.pushes o .handled []
  obtain ⟨f, hf, hleft⟩ :=
    isLeft_of_callOver? onDrop? m.pushes (x := ⟨o, .handled⟩) ho rest
  refine ⟨onDrop?, f, ?_, hleft.exit, hleft.delivered.trans hpushes⟩
  rw [hpolls, List.append_assoc]
  exact hf

theorem stopsAtFailure_of_polling (hi : m.Polling) (ht : m.producer.Tidy m.link) :
    m.StopsAtFailure where
  aborts e := by
    rw [hi.answers, List.mem_append, Option.mem_toList, Option.map_eq_some_iff]
    constructor
    · exact fun he => .inr ⟨e, he, rfl⟩
    · rintro (hmem | ⟨e', he, heq⟩)
      · cases List.eq_of_mem_replicate hmem
      · cases heq
        exact he
  first := hi.answers
  uncounted ha := by
    obtain ⟨e, he⟩ := Option.isSome_iff_exists.mp ha
    obtain ⟨hentries, -, hpushes, -⟩ := hi.aborted he
    exact ⟨hpushes, hentries.trans hpushes.symm⟩
  refused r hp hq := by
    have hpush : m.link.queue.push? r = none := CallQueue.push?_eq_none_iff.mpr hq
    simp [step?, Producer.step?, hp, hpush, abort?]
  failed ticket e q hp hq := by simp [step?, Producer.step?, hp, hq, abort?]
  final ha more m' hr := dead_run ha hr
  kept ha := by
    obtain ⟨e, he⟩ := Option.isSome_iff_exists.mp ha
    have hp : m.producer.place = .aborted e := by
      unfold abort? at he
      split at he <;> cases he
      assumption
    have hexit : m.producer.exit? = none := by rw [Producer.exit?, hp]
    refine ⟨hexit, ?_, ?_, ht.unretired (by rw [hp]; rfl)⟩
    · rw [ht.sender, hexit]
      rfl
    · rw [ht.liveness, hp]
      rfl
  fetches ho := by
    obtain ⟨o, hrec, hentries, houtcomes, hpushes, -⟩ := hi.out ho
    refine ⟨?_, o, hrec, houtcomes⟩
    rw [hentries, hpushes]
  last := by
    rintro ⟨o, ho, hr⟩
    have hout := hi.isOut_of_mem ho hr
    exact ⟨hout, fun more m' hrun => out_run hout hrun⟩
  dies e onDrop? rest he := hi.dies he onDrop? rest
  ends exit rest he := hi.ends he rest

end Exposed

/-- **The first failed call is final.** Whatever a producer's polls are answered, the function he
runs dies over the first call that fails, with all that it owns, and otherwise is left over the
first fetch that brings no record; and in a world that does whatever it likes he takes the steps of
that function. -/
theorem stopsAtFailure_of_run :
    (∀ (onDrop? : Option Payload) (xs : List Poll), EndsOver onDrop? xs) ∧
    ∀ {σ : Type} [Feed σ] (feed : σ) (labels : List (Exposed.Label σ)) (m : Exposed σ),
      (Exposed.start feed).run? labels = some m → m.StopsAtFailure := by
  refine ⟨endsOver, fun feed labels m hr => ?_⟩
  obtain ⟨hpolling, htidy⟩ := Exposed.polling_start feed
  obtain ⟨hi, ht⟩ := Exposed.polling_run hpolling htidy hr
  exact Exposed.stopsAtFailure_of_polling hi ht

def abortedLabels : List (Exposed.Label Script) :=
  [.produce, .produce, .produce, .produce, .world { steps := [.yield 4] } [] [(0, .handled)] true,
    .produce, .produce, .produce, .produce,
    .world {} [] [(1, .failed .handlerAborted)] false, .produce]

def lostLabels : List (Exposed.Label Script) :=
  [.produce, .produce, .produce, .produce,
    .world { steps := [.fail ⟨"lost", []⟩] } [] [(0, .handled)] true,
    .produce, .produce, .produce, .produce, .produce, .produce]

theorem stopsAtFailure_aborted_lost :
    (∃ m, (Exposed.start { steps := [.yield 3] }).run? abortedLabels = some m ∧
      m.producer.abort? = some .handlerAborted ∧
      m.answers = [.handled, .failed .handlerAborted] ∧ m.pushes = [⟨3, 0⟩, ⟨4, 0⟩] ∧
      m.tally.entries = 2 ∧ m.StopsAtFailure) ∧
    ∃ m, (Exposed.start { steps := [.yield 3] }).run? lostLabels = some m ∧
      m.producer.exit? = some (.failed ⟨"lost", []⟩) ∧ m.answers = [.handled] ∧
      m.pushes = [⟨3, 0⟩] ∧ m.tally.entries = 2 ∧ m.StopsAtFailure := by
  have haborted : ((Exposed.start { steps := [.yield 3] }).run? abortedLabels).map (fun m =>
      decide (m.producer.abort? = some .handlerAborted ∧
        m.answers = [.handled, .failed .handlerAborted] ∧ m.pushes = [⟨3, 0⟩, ⟨4, 0⟩] ∧
        m.tally.entries = 2)) = some true := by decide +kernel
  have hlost : ((Exposed.start { steps := [.yield 3] }).run? lostLabels).map (fun m =>
      decide (m.producer.exit? = some (.failed ⟨"lost", []⟩) ∧ m.answers = [.handled] ∧
        m.pushes = [⟨3, 0⟩] ∧ m.tally.entries = 2)) = some true := by decide +kernel
  obtain ⟨m, hr, hm⟩ := Option.map_eq_some_iff.mp haborted
  obtain ⟨m', hr', hm'⟩ := Option.map_eq_some_iff.mp hlost
  obtain ⟨habort, hanswers, hpushes, hentries⟩ := of_decide_eq_true hm
  obtain ⟨hexit, hanswers', hpushes', hentries'⟩ := of_decide_eq_true hm'
  exact ⟨⟨m, hr, habort, hanswers, hpushes, hentries, stopsAtFailure_of_run.2 _ _ m hr⟩,
    ⟨m', hr', hexit, hanswers', hpushes', hentries', stopsAtFailure_of_run.2 _ _ m' hr'⟩⟩

end Handoff.Producer
