import Handoff.Fleet
import Handoff.Proofs.Confluence

/-! Fleets that grow while they run, and the steps that their bridges take in any order. -/
namespace Handoff

theorem Fleet.step?_eq_some_iff {σ : Type} [Feed σ] {f f' : Fleet σ} {i : Nat}
    {label : Bridge.Label} :
    f.step? i label = some f' ↔ f.hasDied = false ∧ ∃ u c b, f[i]? = some (u, c) ∧
      c.bridge.step? u.handler label = some b ∧ f' = f.set i (u, { c with bridge := b }) := by
  cases hdied : f.hasDied with
  | true => simp [step?, hdied]
  | false =>
    constructor
    · intro hf
      simp only [step?, hdied, Bool.false_eq_true, if_false] at hf
      obtain ⟨⟨u, c⟩, hi, hf⟩ := Option.bind_eq_some_iff.mp hf
      obtain ⟨b, hb, hf⟩ := Option.bind_eq_some_iff.mp hf
      cases hf
      exact ⟨rfl, u, c, b, hi, hb, rfl⟩
    · rintro ⟨-, u, c, b, hi, hb, rfl⟩
      simp [step?, hdied, hi, hb]

/-- A fleet that is still growing: its bridges are created one after the other, and those that are
there run meanwhile. -/
structure Muster (σ : Type) where
  taken : UInt32
  waiting : List (Usage σ)
  fleet : Fleet σ := []

namespace Muster

inductive Label where
  | create
  | move (i : Nat) (label : Bridge.Label)
deriving DecidableEq, Repr

namespace Label

/-- What a step is to bridge number `i`. -/
def of? (i : Nat) : Label → Option Bridge.Label
  | create => none
  | move j label => if j = i then some label else none

def isOfSides : Label → Bool
  | create => true
  | move _ label => label.isOfSides

theorem isOfSides_of? {i : Nat} {x : Label} {label : Bridge.Label} (hof : x.of? i = some label)
    (hx : x.isOfSides) : label.isOfSides := by
  cases x with
  | create => cases hof
  | move j label' =>
    simp only [of?, Option.ite_none_right_eq_some, Option.some.injEq] at hof
    obtain ⟨-, rfl⟩ := hof
    exact hx

theorem isOfSides_filterMap {labels : List Label} (hl : ∀ x ∈ labels, x.isOfSides) (i : Nat) :
    ∀ x ∈ labels.filterMap (of? i), x.isOfSides := by
  intro x hx
  obtain ⟨y, hy, hof⟩ := List.mem_filterMap.mp hx
  exact isOfSides_of? hof (hl y hy)

end Label

variable {σ : Type} [Feed σ]

def step? (m : Muster σ) : Label → Option (Muster σ)
  | .create =>
    if m.fleet.hasDied then none
    else match m.waiting with
      | [] => none
      | u :: rest =>
        let c := u.begin m.taken
        some { taken := c.taken, waiting := rest, fleet := m.fleet ++ [(u, c)] }
  | .move i label => (m.fleet.step? i label).map fun f => { m with fleet := f }

def run? (m : Muster σ) : List Label → Option (Muster σ)
  | [] => some m
  | x :: rest => (m.step? x).bind fun next => next.run? rest

def IsOver (m : Muster σ) : Prop := m.waiting = [] ∧ m.fleet.isAtRest

instance (m : Muster σ) : Decidable m.IsOver := inferInstanceAs (Decidable (_ ∧ _))

inductive Step (m : Muster σ) : Label → Muster σ → Prop where
  | create {u rest} (hw : m.waiting = u :: rest) :
    Step m .create
      { taken := (u.begin m.taken).taken, waiting := rest,
        fleet := m.fleet ++ [(u, u.begin m.taken)] }
  | move {i label u c b} (hi : m.fleet[i]? = some (u, c))
      (hs : c.bridge.step? u.handler label = some b) :
    Step m (.move i label) { m with fleet := m.fleet.set i (u, { c with bridge := b }) }

theorem step?_eq_some_iff {m m' : Muster σ} {x : Label} :
    m.step? x = some m' ↔ m.fleet.hasDied = false ∧ m.Step x m' := by
  constructor
  · intro hs
    cases hdied : m.fleet.hasDied with
    | true => cases x <;> simp [step?, Fleet.step?, hdied] at hs
    | false =>
      refine ⟨rfl, ?_⟩
      cases x with
      | create =>
        cases hw : m.waiting with
        | nil => simp [step?, hw] at hs
        | cons u rest =>
          simp only [step?, hdied, hw, Bool.false_eq_true, if_false] at hs
          cases hs
          exact .create hw
      | move i label =>
        obtain ⟨f, hf, rfl⟩ := Option.map_eq_some_iff.mp hs
        obtain ⟨-, u, c, b, hi, hb, rfl⟩ := Fleet.step?_eq_some_iff.mp hf
        exact .move hi hb
  · rintro ⟨hdied, hs⟩
    cases hs with
    | create hw => simp [step?, hdied, hw]
    | move hi hs =>
      have hf := Fleet.step?_eq_some_iff.mpr ⟨hdied, _, _, _, hi, hs, rfl⟩
      simp [step?, hf]

theorem run?_eq_foldlM (m : Muster σ) (xs : List Label) : m.run? xs = xs.foldlM step? m :=
  eq_foldlM (fun _ => rfl) (fun _ _ _ => rfl) m xs

theorem run?_append (m : Muster σ) (xs ys : List Label) :
    m.run? (xs ++ ys) = (m.run? xs).bind fun next => next.run? ys := by
  simp only [run?_eq_foldlM, List.foldlM_append]
  rfl

end Muster

namespace Fleet

variable {σ : Type} [Feed σ]

def takenBy (taken : UInt32) (us : List (Usage σ)) : UInt32 :=
  us.foldl (fun taken u => (u.begin taken).taken) taken

theorem length_begin (taken : UInt32) (us : List (Usage σ)) :
    (begin taken us).length = us.length := by
  induction us generalizing taken with
  | nil => rfl
  | cons u rest ih => exact congrArg (· + 1) (ih (u.begin taken).taken)

theorem getElem?_begin (taken : UInt32) (us : List (Usage σ)) (i : Nat) :
    (begin taken us)[i]? =
      us[i]?.map fun u => (u, u.begin (takenBy taken (us.take i))) := by
  induction us generalizing taken i with
  | nil => rfl
  | cons u rest ih =>
    cases i with
    | zero => rfl
    | succ i => exact ih (u.begin taken).taken i

def solo? (labels : List Bridge.Label) : Usage σ × Creation σ → Option (Usage σ × Creation σ)
  | (u, c) => (c.bridge.run? u.handler labels).map fun b => (u, { c with bridge := b })

@[simp] theorem solo?_nil : solo? (σ := σ) [] = some := rfl

theorem solo?_append (xs ys : List Bridge.Label) (s : Usage σ × Creation σ) :
    solo? (xs ++ ys) s = (solo? xs s).bind (solo? ys) := by
  obtain ⟨u, c⟩ := s
  simp only [solo?, Bridge.run?_append, Option.map_bind, Option.bind_map]
  rfl

end Fleet

namespace Muster

variable {σ : Type} [Feed σ] {m m' : Muster σ} {x : Label} {labels : List Label}

/-- All bridges, those included that are still to be created. -/
def prospect (m : Muster σ) : Fleet σ := m.fleet ++ Fleet.begin m.taken m.waiting

theorem getElem?_prospect {i : Nat} {s : Usage σ × Creation σ} (hi : m.fleet[i]? = some s) :
    m.prospect[i]? = some s := by
  obtain ⟨hlt, -⟩ := List.getElem?_eq_some_iff.mp hi
  rw [prospect, List.getElem?_append_left hlt, hi]

/-- A creation changes nothing for any bridge, and a step matters to one of them only. -/
theorem Step.prospect (hs : m.Step x m') (i : Nat) :
    m'.prospect[i]? = m.prospect[i]?.bind (Fleet.solo? (x.of? i).toList) := by
  cases hs with
  | create hw => simp [Muster.prospect, hw, Fleet.begin, Label.of?]
  | @move j label u c b hj hs =>
    obtain ⟨hlt, -⟩ := List.getElem?_eq_some_iff.mp hj
    have hset : Muster.prospect { m with fleet := m.fleet.set j (u, { c with bridge := b }) } =
        m.prospect.set j (u, { c with bridge := b }) := by
      rw [Muster.prospect, Muster.prospect, List.set_append_left j _ hlt]
    rw [hset, List.getElem?_set]
    by_cases hij : j = i
    · subst hij
      have hlt' : j < m.prospect.length := by
        simp only [Muster.prospect, List.length_append]
        omega
      rw [getElem?_prospect hj]
      simp [hlt', Label.of?, Fleet.solo?, Bridge.run?, hs]
    · simp [hij, Label.of?]

theorem Step.length_prospect (hs : m.Step x m') : m'.prospect.length = m.prospect.length := by
  cases hs with
  | create hw => simp [Muster.prospect, hw, Fleet.begin]
  | move hi hs => simp [Muster.prospect]

theorem length_prospect_of_run (hr : m.run? labels = some m') :
    m'.prospect.length = m.prospect.length := by
  induction labels generalizing m with
  | nil =>
    cases hr
    rfl
  | cons x rest ih =>
    obtain ⟨next, hs, hr⟩ := Option.bind_eq_some_iff.mp hr
    rw [ih hr, (step?_eq_some_iff.mp hs).2.length_prospect]

theorem prospect_of_run (hr : m.run? labels = some m') (i : Nat) :
    m'.prospect[i]? =
      m.prospect[i]?.bind (Fleet.solo? (labels.filterMap (Label.of? i))) := by
  induction labels generalizing m with
  | nil =>
    cases hr
    simp
  | cons x rest ih =>
    obtain ⟨next, hs, hr⟩ := Option.bind_eq_some_iff.mp hr
    have hcons : (x :: rest).filterMap (Label.of? i) =
        (x.of? i).toList ++ rest.filterMap (Label.of? i) := by
      cases hx : x.of? i <;> simp [hx]
    rw [ih hr, (step?_eq_some_iff.mp hs).2.prospect i, hcons, Option.bind_assoc]
    exact congrArg _ (funext fun s => (Fleet.solo?_append _ _ s).symm)

def IsTended (m : Muster σ) : Prop :=
  ∀ s ∈ m.prospect, s.1.handler.IsCalm ∧ ∃ g, s.2.bridge.IsTended g

theorem tended_begin (taken : UInt32) {us : List (Usage σ)} (hh : ∀ u ∈ us, u.handler.IsCalm) :
    IsTended { taken, waiting := us } := by
  intro s hs
  obtain ⟨i, hi⟩ := List.mem_iff_getElem?.mp hs
  rw [prospect, List.nil_append, Fleet.getElem?_begin] at hi
  obtain ⟨u, hu, rfl⟩ := Option.map_eq_some_iff.mp hi
  exact ⟨hh u (List.mem_of_getElem? hu), _, u.tended_begin _⟩

namespace IsTended

theorem fleet (hm : m.IsTended) {i : Nat} {u : Usage σ} {c : Creation σ}
    (hi : m.fleet[i]? = some (u, c)) : u.handler.IsCalm ∧ ∃ g, c.bridge.IsTended g :=
  hm _ (List.mem_of_getElem? (getElem?_prospect hi))

theorem alive (hm : m.IsTended) : m.fleet.hasDied = false := by
  rw [Fleet.hasDied, List.any_eq_false]
  intro s hs
  obtain ⟨-, g, hb⟩ := hm s (List.mem_append_left _ hs)
  simp [hb.alive]

theorem step?_iff (hm : m.IsTended) : m.step? x = some m' ↔ m.Step x m' := by
  rw [step?_eq_some_iff]
  exact and_iff_right hm.alive

theorem step (hm : m.IsTended) (hx : x.isOfSides) (hs : m.step? x = some m') :
    m'.IsTended := by
  intro s hmem
  obtain ⟨i, hi⟩ := List.mem_iff_getElem?.mp hmem
  rw [(hm.step?_iff.mp hs).prospect i] at hi
  obtain ⟨⟨u, c⟩, hold, hsolo⟩ := Option.bind_eq_some_iff.mp hi
  obtain ⟨hh, g, hb⟩ := hm _ (List.mem_of_getElem? hold)
  cases hof : x.of? i with
  | none =>
    rw [hof] at hsolo
    cases hsolo
    exact ⟨hh, g, hb⟩
  | some label =>
    have hlabel : label.isOfSides := Label.isOfSides_of? hof hx
    rw [hof] at hsolo
    obtain ⟨b, hrun, rfl⟩ := Option.map_eq_some_iff.mp hsolo
    obtain ⟨next, hstep, hnil⟩ := Option.bind_eq_some_iff.mp hrun
    cases hnil
    exact ⟨hh, g, hb.step hh hlabel hstep⟩

theorem swap_create (hm : m.IsTended) {i : Nat} {label : Bridge.Label} (hl : label.isOfSides)
    {m₁ m₂ : Muster σ} (h₁ : m.step? .create = some m₁) (h₂ : m.step? (.move i label) = some m₂) :
    ∃ e, m₁.step? (.move i label) = some e ∧ m₂.step? .create = some e := by
  have hm₁ := hm.step rfl h₁
  have hm₂ := hm.step (x := .move i label) hl h₂
  cases hm.step?_iff.mp h₁ with
  | @create u rest hw =>
    cases hm.step?_iff.mp h₂ with
    | @move _ _ v c b hi hs =>
      obtain ⟨hlt, -⟩ := List.getElem?_eq_some_iff.mp hi
      have hi₁ : (m.fleet ++ [(u, u.begin m.taken)])[i]? = some (v, c) := by
        rw [List.getElem?_append_left hlt, hi]
      refine ⟨_, hm₁.step?_iff.mpr (.move hi₁ hs), ?_⟩
      rw [List.set_append_left i _ hlt]
      exact hm₂.step?_iff.mpr (.create hw)

theorem swap_move (hm : m.IsTended) {i j : Nat} {x y : Bridge.Label} (hx : x.isOfSides)
    (hy : y.isOfSides) (hne : Label.move i x ≠ .move j y) {m₁ m₂ : Muster σ}
    (h₁ : m.step? (.move i x) = some m₁) (h₂ : m.step? (.move j y) = some m₂) :
    ∃ e, m₁.step? (.move j y) = some e ∧ m₂.step? (.move i x) = some e := by
  have hm₁ := hm.step (x := .move i x) hx h₁
  have hm₂ := hm.step (x := .move j y) hy h₂
  cases hm.step?_iff.mp h₁ with
  | @move _ _ u c b hi hs =>
    cases hm.step?_iff.mp h₂ with
    | @move _ _ v c' b' hj hs' =>
      obtain ⟨hlt, -⟩ := List.getElem?_eq_some_iff.mp hi
      by_cases hij : i = j
      · subst hij
        cases hi.symm.trans hj
        obtain ⟨hh, g, hb⟩ := hm.fleet hi
        have hxy : x ≠ y := fun h => hne (by rw [h])
        obtain ⟨e, he, he'⟩ := (Bridge.commuting_sides hh g).swap hx hy hxy hb hs hs'
        have hi₁ : (m.fleet.set i (u, { c with bridge := b }))[i]? =
            some (u, { c with bridge := b }) := List.getElem?_set_self hlt
        have hi₂ : (m.fleet.set i (u, { c with bridge := b' }))[i]? =
            some (u, { c with bridge := b' }) := List.getElem?_set_self hlt
        refine ⟨_, hm₁.step?_iff.mpr (.move hi₁ he), ?_⟩
        have hmove := hm₂.step?_iff.mpr (.move hi₂ he')
        simpa only [List.set_set] using hmove
      · have hi₂ : (m.fleet.set j (v, { c' with bridge := b' }))[i]? = some (u, c) :=
          (List.getElem?_set_ne (Ne.symm hij)).trans hi
        have hj₁ : (m.fleet.set i (u, { c with bridge := b }))[j]? = some (v, c') :=
          (List.getElem?_set_ne hij).trans hj
        refine ⟨_, hm₁.step?_iff.mpr (.move hj₁ hs'), ?_⟩
        rw [List.set_comm _ _ hij]
        exact hm₂.step?_iff.mpr (.move hi₂ hs)

end IsTended

theorem commuting_muster : Commuting (step? (σ := σ)) (fun x => x.isOfSides) IsTended where
  keep hx hm hs := hm.step hx hs
  swap {m m₁ m₂ x y} hx hy hne hm h₁ h₂ := by
    cases x with
    | create =>
      cases y with
      | create => exact (hne rfl).elim
      | move j y => exact hm.swap_create hy h₁ h₂
    | move i x =>
      cases y with
      | create =>
        obtain ⟨e, he, he'⟩ := hm.swap_create hx h₂ h₁
        exact ⟨e, he', he⟩
      | move j y => exact hm.swap_move hx hy hne h₁ h₂

theorem IsTended.run (hm : m.IsTended) (hl : ∀ x ∈ labels, x.isOfSides)
    (hr : m.run? labels = some m') : m'.IsTended := by
  rw [run?_eq_foldlM] at hr
  exact commuting_muster.keep_run hm hl hr

end Muster

namespace Fleet

variable {σ : Type} [Feed σ] {f : Fleet σ}

theorem isAtRest_iff (hf : f.hasDied = false) :
    f.isAtRest ↔ ∀ s ∈ f, s.2.bridge.advance? s.1.handler = none := by
  have hadvance (i : Nat) (s : Usage σ × Creation σ) (hi : f[i]? = some s) :
      (f.advance? i).isNone ↔ s.2.bridge.advance? s.1.handler = none := by
    have hstep (label : Bridge.Label) : f.step? i label =
        (s.2.bridge.step? s.1.handler label).map fun b =>
          f.set i (s.1, { s.2 with bridge := b }) := by
      simp only [step?, hf, hi, Bool.false_eq_true, if_false, Option.map_eq_bind]
      rfl
    rw [advance?, Bridge.advance?, hstep, hstep]
    cases s.2.bridge.step? s.1.handler .consume <;> simp
  rw [isAtRest, List.all_eq_true]
  constructor
  · intro hall s hs
    obtain ⟨i, hi⟩ := List.mem_iff_getElem?.mp hs
    obtain ⟨hlt, -⟩ := List.getElem?_eq_some_iff.mp hi
    exact (hadvance i s hi).mp (hall i (List.mem_range.mpr hlt))
  · intro hall i hi
    have hlt : i < f.length := List.mem_range.mp hi
    exact (hadvance i f[i] (List.getElem?_eq_getElem hlt)).mpr (hall _ (List.getElem_mem hlt))

end Fleet

namespace Muster

variable {σ : Type} [Feed σ] {m m' : Muster σ} {labels : List Label}

theorem IsOver.step?_eq_none (ho : m.IsOver) (x : Label) (hx : x.isOfSides) :
    m.step? x = none := by
  cases hs : m.step? x with
  | none => rfl
  | some m' =>
    obtain ⟨hdied, hstep⟩ := step?_eq_some_iff.mp hs
    obtain ⟨hw, hrest⟩ := ho
    cases hstep with
    | create hw' =>
      rw [hw] at hw'
      cases hw'
    | move hi hb =>
      have hnone := (Fleet.isAtRest_iff hdied).mp hrest _ (List.mem_of_getElem? hi)
      exact (Option.some_ne_none _ (hb.symm.trans (Bridge.advance?_eq_none_iff.mp hnone _ hx))).elim

theorem IsOver.eq_of_run (hm : m.IsOver) (hl : ∀ x ∈ labels, x.isOfSides)
    (hr : m.run? labels = some m') : m = m' := by
  cases labels with
  | nil => exact Option.some.inj hr
  | cons x rest =>
    rw [run?, hm.step?_eq_none x (hl x List.mem_cons_self)] at hr
    cases hr

theorem IsTended.run?_move (hm : m.IsTended) {i : Nat} {u : Usage σ} {c : Creation σ}
    (hi : m.fleet[i]? = some (u, c)) {xs : List Bridge.Label} (hx : ∀ x ∈ xs, x.isOfSides)
    {b : Bridge σ} (hr : c.bridge.run? u.handler xs = some b) :
    m.run? (xs.map (.move i)) =
      some { m with fleet := m.fleet.set i (u, { c with bridge := b }) } := by
  induction xs generalizing m c with
  | nil =>
    cases hr
    obtain ⟨hlt, heq⟩ := List.getElem?_eq_some_iff.mp hi
    rw [← heq, List.set_getElem_self]
    rfl
  | cons x rest ih =>
    obtain ⟨next, hs, hr⟩ := Option.bind_eq_some_iff.mp hr
    obtain ⟨hlt, -⟩ := List.getElem?_eq_some_iff.mp hi
    have hstep := hm.step?_iff.mpr (.move hi hs)
    have hnext := hm.step (x := .move i x) (hx x List.mem_cons_self) hstep
    rw [List.map_cons, run?, hstep, Option.bind_some,
      ih hnext (List.getElem?_set_self hlt) (fun y hy => hx y (List.mem_cons_of_mem x hy)) hr]
    simp only [List.set_set]

end Muster

end Handoff
