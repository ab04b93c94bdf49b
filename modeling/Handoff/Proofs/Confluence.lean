import Handoff.Proofs.Progress
import Handoff.Proofs.Refusal

/-! The steps of the two sides of a bridge never stand in each other's way, so whatever their order,
they lead to one end. -/
namespace Handoff

/-- Steps of which no two stand in each other's way: what one label makes possible, no other one
takes away, and their order does not matter. -/
structure Commuting {α ι : Type} (step? : α → ι → Option α) (allowed : ι → Prop) (P : α → Prop) :
    Prop where
  keep {a a' x} (hx : allowed x) (ha : P a) (hs : step? a x = some a') : P a'
  swap {a a₁ a₂ x y} (hx : allowed x) (hy : allowed y) (hne : x ≠ y) (ha : P a)
    (h₁ : step? a x = some a₁) (h₂ : step? a y = some a₂) :
    ∃ m, step? a₁ y = some m ∧ step? a₂ x = some m

namespace Commuting

variable {α ι : Type} {step? : α → ι → Option α} {allowed : ι → Prop} {P : α → Prop}
  {a b b' : α} {x : ι} {xs ys : List ι}

theorem keep_run (hC : Commuting step? allowed P) (ha : P a) (hx : ∀ x ∈ xs, allowed x)
    (hr : xs.foldlM step? a = some b) : P b :=
  foldlM_keeps (fun _ _ x hmem ha hs => hC.keep (hx x hmem) ha hs) ha hr

/-- A step can be taken before a run instead of after it, unless it is one of those of the run. -/
theorem strip (hC : Commuting step? allowed P) (ha : P a) (hx : allowed x)
    (hs : step? a x = some b) (hy : ∀ y ∈ ys, allowed y) (hr : ys.foldlM step? a = some b') :
    ∃ (more more' : List ι) (m : α), (∀ z ∈ more, allowed z) ∧ (∀ z ∈ more', allowed z) ∧
      more.foldlM step? b = some m ∧ more'.foldlM step? b' = some m ∧
      more.length + 1 = ys.length + more'.length := by
  induction ys generalizing a b with
  | nil =>
    cases hr
    refine ⟨[], [x], b, by simp, by simpa using hx, rfl, ?_, rfl⟩
    simp [hs]
  | cons y rest ih =>
    obtain ⟨next, hnext, hr⟩ := Option.bind_eq_some_iff.mp hr
    have hy' : allowed y := hy y List.mem_cons_self
    have hrest : ∀ z ∈ rest, allowed z := fun z hz => hy z (List.mem_cons_of_mem y hz)
    by_cases hxy : x = y
    · subst hxy
      cases hs.symm.trans hnext
      exact ⟨rest, [], b', hrest, by simp, hr, rfl, rfl⟩
    · obtain ⟨m, hm, hm'⟩ := hC.swap hx hy' hxy ha hs hnext
      obtain ⟨more, more', k, hmore, hmore', hk, hk', hlen⟩ :=
        ih (hC.keep hy' ha hnext) hm' hrest hr
      refine ⟨y :: more, more', k, ?_, hmore', ?_, hk', ?_⟩
      · simpa using ⟨hy', hmore⟩
      · simp [hm, hk]
      · simp only [List.length_cons]
        omega

/-- Two runs go on to a common end, which both reach after equally many steps. -/
theorem join (hC : Commuting step? allowed P) (ha : P a) (hx : ∀ x ∈ xs, allowed x)
    (h₁ : xs.foldlM step? a = some b) (hy : ∀ y ∈ ys, allowed y)
    (h₂ : ys.foldlM step? a = some b') :
    ∃ (more more' : List ι) (m : α), (∀ z ∈ more, allowed z) ∧ (∀ z ∈ more', allowed z) ∧
      more.foldlM step? b = some m ∧ more'.foldlM step? b' = some m ∧
      xs.length + more.length = ys.length + more'.length := by
  induction xs generalizing a b' ys with
  | nil =>
    cases h₁
    exact ⟨ys, [], b', hy, by simp, h₂, rfl, by simp⟩
  | cons x rest ih =>
    obtain ⟨next, hnext, hr⟩ := Option.bind_eq_some_iff.mp h₁
    have hx' : allowed x := hx x List.mem_cons_self
    have hrest : ∀ z ∈ rest, allowed z := fun z hz => hx z (List.mem_cons_of_mem x hz)
    -- the other run goes on to where its steps lead after `x`
    obtain ⟨via, last, k, hvia, hlast, hk, hk', hlen⟩ := hC.strip ha hx' hnext hy h₂
    obtain ⟨more, more', m, hmore, hmore', hm, hm', hlen'⟩ :=
      ih (hC.keep hx' ha hnext) hrest hr hvia hk
    refine ⟨more, last ++ more', m, hmore, ?_, hm, ?_, ?_⟩
    · exact fun z hz => (List.mem_append.mp hz).elim (hlast z) (hmore' z)
    · rw [List.foldlM_append, hk']
      exact hm'
    · simp only [List.length_cons, List.length_append]
      omega

theorem join_of_rest (hC : Commuting step? allowed P) (ha : P a) (hx : ∀ x ∈ xs, allowed x)
    (h₁ : xs.foldlM step? a = some b) (hy : ∀ y ∈ ys, allowed y)
    (h₂ : ys.foldlM step? a = some b') (hrest : ∀ z, allowed z → step? b' z = none) :
    ∃ more : List ι, (∀ z ∈ more, allowed z) ∧ more.foldlM step? b = some b' ∧
      xs.length + more.length = ys.length := by
  obtain ⟨more, more', m, hmore, hmore', hm, hm', hlen⟩ := hC.join ha hx h₁ hy h₂
  cases more' with
  | nil =>
    cases hm'
    exact ⟨more, hmore, hm, hlen⟩
  | cons z last =>
    obtain ⟨next, hs, -⟩ := Option.bind_eq_some_iff.mp hm'
    rw [hrest z (hmore' z List.mem_cons_self)] at hs
    cases hs

end Commuting

variable {σ : Type} [Feed σ] {h : Handler} {g : UInt32}

section Sides

variable {p p' : Producer} {c c' : Consumer} {l l' : Link σ}

theorem Steady.idle_of_produce (hi : Steady g p c l) (hs : p.Step l p' l') :
    c.place.ticket? = none ∧ l.queue.calls = [] := by
  by_cases hbusy : c.place.ticket? ≠ none ∨ l.queue.calls ≠ []
  · obtain ⟨ticket, hplace, hcalling⟩ := hi.calling hbusy
    have hwaits : l.queue.collect? ticket = none := by
      cases hcalling with
      | queued _ _ ha | taken _ _ ha | returning _ _ ha | unwinding _ _ ha =>
        exact CallQueue.collect?_of_answers_eq_nil ha ticket
      | handled hticket hcalls | failed hticket hcalls =>
        exact (hbusy.elim (· hticket) (· hcalls)).elim
    cases hs with
    | collectHandled hp hq | collectFailed hp hq =>
      cases hplace.symm.trans hp
      rw [hwaits] at hq
      cases hq
    | start hp | enterWaiting hp | enterAnswered hp | receive hp | pushRefused hp | push hp
    | retire hp | mark hp | release hp => cases hplace.symm.trans hp
  · simpa only [not_or, Decidable.not_not] using hbusy

theorem Steady.begins (hi : Steady g p c l) (hs : p.Step l p' l') {exit? : Option (Exit × Nat)}
    {c'' : Consumer} {l'' : Link σ} (hc : c.Step h exit? l c'' l'') :
    c.place = .fresh ∧ c'' = { c with place := .receiving } ∧ l'' = l := by
  obtain ⟨hticket, hcalls⟩ := hi.idle_of_produce hs
  have hexit : p.exit? = none := hs.exit?_eq_none
  have hleaving : c.place.isLeaving = false := hi.leaving_of_produce hs
  have hclosing : c.place.isClosing = false := by
    cases hcp : c.place.isClosing with
    | false => rfl
    | true =>
      have hended := hi.informed.closing hcp
      simp [hexit] at hended
  cases hc with
  | begin hp => exact ⟨hp, rfl, rfl⟩
  | take hp hq => simp [CallQueue.take?_eq_none_iff.mpr hcalls] at hq
  | drained hp hq hn =>
    rw [hi.tidy.sender, hexit] at hn
    cases hn
  | act hp | finish hp | answer hp | unwind hp => simp [hp] at hticket
  | join hp | giveUp hp | judge hp | resolve hp => simp [hp] at hclosing
  | drop hp | leave hp => simp [hp] at hleaving

end Sides

namespace Bridge

variable {b b₁ b₂ m : Bridge σ} {x y : Label} {xs ys : List Label}

theorem run?_eq_foldlM (b : Bridge σ) (xs : List Label) :
    b.run? h xs = xs.foldlM (fun b x => b.step? h x) b :=
  eq_foldlM (fun _ => rfl) (fun _ _ _ => rfl) b xs

theorem run?_append (b : Bridge σ) (xs ys : List Label) :
    b.run? h (xs ++ ys) = (b.run? h xs).bind fun next => next.run? h ys := by
  simp only [run?_eq_foldlM, List.foldlM_append]
  rfl

/-- The task of the bridge is kept and its handler returns, or no bridge came of its creation. -/
def IsTended (g : UInt32) (b : Bridge σ) : Prop := b.Holds (Steady g) ∨ b.producer = none

omit [Feed σ] in
theorem IsTended.alive (hb : b.IsTended g) : b.abort? = none := by
  rcases hb with ⟨p, hp, hi⟩ | hp
  · exact (abort?_of_producer hp).trans hi.served.alive
  · simp [abort?, hp]

theorem IsTended.step (hh : h.IsCalm) (hb : b.IsTended g) (hx : x.isOfSides)
    (hs : b.step? h x = some m) : m.IsTended g := by
  rcases hb with hb | hp
  · refine .inl ((invariant_steady hh g).step ?_ hs hb)
    rintro rfl
    cases hx
  · right
    cases (step?_eq_some_iff.mp hs).2 with
    | produce hp' => simp [hp] at hp'
    | consume => exact hp
    | raise | wake | publish | loseConsumer | letGo => cases hx

/-- Where both sides can step, either of them can do so first. -/
theorem IsTended.swap (hb : b.IsTended g) (hp : b.step? h .produce = some b₁)
    (hc : b.step? h .consume = some b₂) :
    ∃ m, b₁.step? h .consume = some m ∧ b₂.step? h .produce = some m := by
  obtain ⟨-, hp⟩ := step?_eq_some_iff.mp hp
  obtain ⟨hdead, hc⟩ := step?_eq_some_iff.mp hc
  cases hp with
  | @produce p p' l' hproducer hpstep =>
    cases hc with
    | @consume c' l'' hcstep =>
      rcases hb with ⟨q, hq, hi⟩ | hnone
      · cases hq.symm.trans hproducer
        obtain ⟨hfresh, rfl, rfl⟩ := hi.begins hpstep hcstep
        refine ⟨{ b with
          producer := some p', link := l', consumer := { b.consumer with place := .receiving } },
          ?_, ?_⟩
        · have halive : ({ b with producer := some p', link := l' } : Bridge σ).abort? = none :=
            (abort?_of_producer rfl).trans (hi.produce hpstep).served.alive
          exact step?_eq_some_iff.mpr ⟨halive, .consume (.begin hfresh)⟩
        · exact step?_eq_some_iff.mpr ⟨hdead, .produce hproducer hpstep⟩
      · rw [hnone] at hproducer
        cases hproducer

theorem commuting_sides (hh : h.IsCalm) (g : UInt32) :
    Commuting (fun (b : Bridge σ) x => b.step? h x) (fun x => x.isOfSides) (IsTended g) where
  keep hx hb hs := hb.step hh hx hs
  swap {b _ _ x y} hx hy hne hb h₁ h₂ := by
    cases x with
    | produce =>
      cases y with
      | consume => exact hb.swap h₁ h₂
      | produce => exact (hne rfl).elim
      | raise | wake | publish | loseConsumer | letGo => cases hy
    | consume =>
      cases y with
      | produce =>
        obtain ⟨m, hm₂, hm₁⟩ := hb.swap h₂ h₁
        exact ⟨m, hm₁, hm₂⟩
      | consume => exact (hne rfl).elim
      | raise | wake | publish | loseConsumer | letGo => cases hy
    | raise | wake | publish | loseConsumer | letGo => cases hx

theorem IsTended.run (hh : h.IsCalm) (hb : b.IsTended g) (hx : ∀ x ∈ xs, x.isOfSides)
    (hr : b.run? h xs = some m) : m.IsTended g := by
  rw [run?_eq_foldlM] at hr
  exact (commuting_sides hh g).keep_run hb hx hr

theorem advance?_eq_none_iff {b : Bridge σ} :
    b.advance? h = none ↔ ∀ x : Label, x.isOfSides → b.step? h x = none := by
  unfold advance?
  constructor
  · intro hr x hx
    cases hc : b.step? h .consume with
    | some next => simp [hc] at hr
    | none =>
      rw [hc, Option.orElse_none] at hr
      cases x with
      | produce => exact hr
      | consume => exact hc
      | raise | wake | publish | loseConsumer | letGo => cases hx
  · intro hnone
    rw [hnone .consume rfl, Option.orElse_none]
    exact hnone .produce rfl

/-- One run of the sides has come to rest; every other one is on its way there. -/
theorem IsTended.run_to_rest (hh : h.IsCalm) (hb : b.IsTended g) (hx : ∀ x ∈ xs, x.isOfSides)
    (h₁ : b.run? h xs = some b₁) (hy : ∀ y ∈ ys, y.isOfSides) (h₂ : b.run? h ys = some b₂)
    (hrest : b₂.advance? h = none) :
    ∃ more : List Label, (∀ z ∈ more, z.isOfSides) ∧ b₁.run? h more = some b₂ ∧
      xs.length + more.length = ys.length := by
  simp only [run?_eq_foldlM] at h₁ h₂ ⊢
  exact (commuting_sides hh g).join_of_rest hb hx h₁ hy h₂ (advance?_eq_none_iff.mp hrest)

theorem IsTended.eq_of_rest (hh : h.IsCalm) (hb : b.IsTended g) (hx : ∀ x ∈ xs, x.isOfSides)
    (h₁ : b.run? h xs = some b₁) (hrest₁ : b₁.advance? h = none) (hy : ∀ y ∈ ys, y.isOfSides)
    (h₂ : b.run? h ys = some b₂) (hrest₂ : b₂.advance? h = none) : b₁ = b₂ := by
  obtain ⟨more, hmore, hr, -⟩ := hb.run_to_rest hh hx h₁ hy h₂ hrest₂
  cases more with
  | nil =>
    cases hr
    rfl
  | cons z rest =>
    obtain ⟨next, hs, -⟩ := Option.bind_eq_some_iff.mp hr
    rw [advance?_eq_none_iff.mp hrest₁ z (hmore z List.mem_cons_self)] at hs
    cases hs

end Bridge

namespace Usage

theorem producer_of_failure (u : Usage σ) (taken : UInt32) {failure : CreateFailure}
    (hc : (u.begin taken).failure? = some failure) : (u.begin taken).bridge.producer = none := by
  rcases hpub : Feed.publishAll u.source.feed (u.before.filterMap CallerAct.early?) with ⟨f, es⟩
  simp only [begin, hpub] at hc ⊢
  cases hf : (({ u.source with feed := f } : Source σ).create u.config taken es).failure? with
  | none => simp [hf] at hc
  | some failure' =>
    obtain ⟨l, g, -, hremains⟩ := Source.failing_of_failure _ u.config taken es hf
    simp only [hremains]
    rfl

theorem tended_begin (u : Usage σ) (taken : UInt32) :
    (u.begin taken).bridge.IsTended (nextGeneration taken) := by
  cases hc : (u.begin taken).failure? with
  | none =>
    obtain ⟨p, hp, hf⟩ := u.fresh_begin taken hc
    exact .inl ⟨p, hp, hf.steady⟩
  | some failure => exact .inr (u.producer_of_failure taken hc)

end Usage

end Handoff
