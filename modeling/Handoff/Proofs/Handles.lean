import Handoff.Proofs.Abandonment
import Handoff.Proofs.Confluence
import Handoff.Proofs.Interleaving
import Handoff.Proofs.Lockstep

/-! Callers who let go of what they have of a bridge: the bridge does not notice. -/
namespace Handoff

/-- What the caller of a bridge has in his hands. A bridge that is not split holds a stop handle,
the completion and a share of the liveness, of which the producer has a share of its own. -/
structure Handles where
  isWhole : Bool := true
  hasPart : Bool := false
  stoppers : Nat := 0
deriving DecidableEq, Repr

namespace Handles

inductive Use where
  | cloneStopper
  | split
  /-- Waits for the completion and lets go of everything else. -/
  | await
  | dropBridge
  | dropCompletion
  | dropStopper
deriving DecidableEq, Repr

def hasCompletion (hs : Handles) : Bool := hs.isWhole || hs.hasPart

def hasStopper (hs : Handles) : Bool := hs.isWhole || 0 < hs.stoppers

def use? (hs : Handles) : Use → Option Handles
  | .cloneStopper => if hs.hasStopper then some { hs with stoppers := hs.stoppers + 1 } else none
  | .split =>
    if hs.isWhole then some { isWhole := false, hasPart := true, stoppers := hs.stoppers + 1 }
    else none
  | .await => if hs.isWhole then some { hs with isWhole := false, hasPart := true } else none
  | .dropBridge => if hs.isWhole then some { hs with isWhole := false } else none
  | .dropCompletion => if hs.hasPart then some { hs with hasPart := false } else none
  | .dropStopper =>
    if 0 < hs.stoppers then some { hs with stoppers := hs.stoppers - 1 } else none

end Handles

structure Held (σ : Type) where
  bridge : Bridge σ
  handles : Handles := {}
deriving DecidableEq, Repr

namespace Held

inductive Label where
  | side (label : Bridge.Label)
  | use (a : Handles.Use)
deriving DecidableEq, Repr

namespace Label

def isOfSides : Label → Bool
  | side label => label.isOfSides
  | use _ => true

def side? : Label → Option Bridge.Label
  | side label => some label
  | use _ => none

theorem isOfSides_filterMap {labels : List Label} (hl : ∀ y ∈ labels, y.isOfSides) :
    ∀ x ∈ labels.filterMap side?, x.isOfSides := by
  intro x hx
  obtain ⟨y, hy, hside⟩ := List.mem_filterMap.mp hx
  cases y with
  | use a => cases hside
  | side label =>
    cases hside
    exact hl _ hy

end Label

variable {σ : Type} [Feed σ]

/-- Of all handles the bridge misses the completion only: a stop handle or a share of the liveness
that goes takes nothing along. -/
def left? (h : Handler) (x : Held σ) (hs : Handles) : Option (Bridge σ) :=
  if x.handles.hasCompletion && !hs.hasCompletion then x.bridge.step? h .letGo else some x.bridge

def step? (h : Handler) (x : Held σ) : Label → Option (Held σ)
  | .side label => (x.bridge.step? h label).map fun b => { x with bridge := b }
  | .use a => (x.handles.use? a).bind fun hs => (x.left? h hs).map fun b => ⟨b, hs⟩

def run? (h : Handler) (x : Held σ) : List Label → Option (Held σ)
  | [] => some x
  | y :: rest => (x.step? h y).bind fun next => next.run? h rest

end Held

variable {σ : Type}

def Consumer.signalled (c : Consumer) (s : Signal) : Consumer := { c with signal := s }

def Bridge.signalled (b : Bridge σ) (s : Signal) : Bridge σ :=
  { b with consumer := b.consumer.signalled s }

def Signal.MovesAlike (s s' t t' : Signal) : Prop :=
  (s' = s ∧ t' = t) ∨ ∃ v, s' = s.send v ∧ t' = t.send v

theorem Signal.MovesAlike.symm {s s' t t' : Signal} (hs : s.MovesAlike s' t t') :
    t.MovesAlike t' s s' := by
  rcases hs with ⟨hs, ht⟩ | ⟨v, hs, ht⟩
  · exact .inl ⟨ht, hs⟩
  · exact .inr ⟨v, ht, hs⟩

variable [Feed σ] {h : Handler}

namespace Consumer

variable {exit? : Option (Exit × Nat)} {c c' : Consumer} {l l' : Link σ}

theorem act_signalled (c : Consumer) (s : Signal) (l : Link σ) (call : Call) (isHeld : Bool)
    (rest : List Act) (a : Act) :
    (c.signalled s).act l call isHeld rest a =
      ((c.act l call isHeld rest a).1.signalled s, (c.act l call isHeld rest a).2) := by
  cases a <;> rfl

/-- The consumer tells of the end without asking who will hear of it. -/
theorem Step.signalled (hs : c.Step h exit? l c' l') (s : Signal) :
    ∃ s', (c.signalled s).Step h exit? l (c'.signalled s') l' ∧
      c.signal.MovesAlike c'.signal s s' := by
  cases hs with
  | begin hp => exact ⟨s, .begin hp, .inl ⟨rfl, rfl⟩⟩
  | take hp hq => exact ⟨s, .take hp hq, .inl ⟨rfl, rfl⟩⟩
  | drained hp hq hn => exact ⟨s, .drained hp hq hn, .inl ⟨rfl, rfl⟩⟩
  | @act call isHeld a rest hp =>
    have hstep : (c.signalled s).Step h exit? l _ _ := .act hp
    rw [act_signalled] at hstep
    exact ⟨s, hstep, .inl ⟨(c.act_frame l call isHeld rest a).2.2, rfl⟩⟩
  | finish hp => exact ⟨s, .finish hp, .inl ⟨rfl, rfl⟩⟩
  | answer hp => exact ⟨s, .answer hp, .inl ⟨rfl, rfl⟩⟩
  | unwind hp => exact ⟨s, .unwind hp, .inl ⟨rfl, rfl⟩⟩
  | join hp hc => exact ⟨s, .join hp hc, .inl ⟨rfl, rfl⟩⟩
  | giveUp hp hc => exact ⟨s, .giveUp hp hc, .inl ⟨rfl, rfl⟩⟩
  | judge hp he => exact ⟨s, .judge hp he, .inl ⟨rfl, rfl⟩⟩
  | @resolve v hp => exact ⟨s.send v, .resolve hp, .inr ⟨v, rfl, rfl⟩⟩
  | @drop part rest hp =>
    have hstep : (c.signalled s).Step h exit? l _ _ := .drop hp
    cases part with
    | handler | receiver => exact ⟨s, hstep, .inl ⟨rfl, rfl⟩⟩
    | context =>
      cases hc : c.context with
      | sent g =>
        refine ⟨s.abandon, ?_, .inr ⟨.failed .consumerDropped, ?_, rfl⟩⟩
        · simpa [dropPart, dropContext, signalled, hc] using hstep
        · simp [dropPart, dropContext, hc, Signal.abandon]
      | awaited | lost | refused | used =>
        refine ⟨s, ?_, .inl ⟨?_, rfl⟩⟩
        · simpa [dropPart, dropContext, signalled, hc] using hstep
        · simp [dropPart, dropContext, hc]
  | leave hp => exact ⟨s, .leave hp, .inl ⟨rfl, rfl⟩⟩

end Consumer

namespace Bridge

variable {x x' b b' : Bridge σ} {label : Label} {labels : List Label}

omit [Feed σ] in
theorem signalled_self (b : Bridge σ) : b.signalled b.consumer.signal = b := rfl

theorem step?_signalled (hl : label.isOfSides) (hs : b.step? h label = some b') (s : Signal) :
    ∃ s', (b.signalled s).step? h label = some (b'.signalled s') ∧
      b.consumer.signal.MovesAlike b'.consumer.signal s s' := by
  obtain ⟨halive, hstep⟩ := step?_eq_some_iff.mp hs
  have halive' : (b.signalled s).abort? = none := halive
  cases hstep with
  | produce hp hside =>
    exact ⟨s, step?_eq_some_iff.mpr ⟨halive', .produce hp hside⟩, .inl ⟨rfl, rfl⟩⟩
  | consume hside =>
    obtain ⟨s', hside', hsignal⟩ := hside.signalled s
    exact ⟨s', step?_eq_some_iff.mpr ⟨halive', .consume hside'⟩, hsignal⟩
  | raise | wake | publish | loseConsumer | letGo => cases hl

/-- A bridge whose caller may have let go of the completion, beside one whose caller waits for
it. -/
structure Shadows (x b : Bridge σ) : Prop where
  same : x = b.signalled x.consumer.signal
  held : x.consumer.signal.isHeld → x = b
  value : x.completion? = none ∨ x.completion? = b.completion?

namespace Shadows

omit [Feed σ] in
theorem refl (b : Bridge σ) : b.Shadows b := ⟨rfl, fun _ => rfl, .inr rfl⟩

omit [Feed σ] in
theorem symm_same (hb : x.Shadows b) : b = x.signalled b.consumer.signal := by
  rw [hb.same]
  rfl

omit [Feed σ] in
theorem link (hb : x.Shadows b) : x.link = b.link := by
  rw [hb.same]
  rfl

omit [Feed σ] in
/-- A signal that nobody holds tells nothing that the other one does not. -/
theorem moved (hb : x.Shadows b) (hsame : x' = b'.signalled x'.consumer.signal)
    (hs : b.consumer.signal.MovesAlike b'.consumer.signal
      x.consumer.signal x'.consumer.signal) : x'.Shadows b' := by
  have hvalue := hb.value
  cases hheld : x.consumer.signal.isHeld with
  | true =>
    cases hb.held hheld
    have heq : x'.consumer.signal = b'.consumer.signal := by
      rcases hs with ⟨hs, ht⟩ | ⟨v, hs, ht⟩
      · rw [hs, ht]
      · rw [hs, ht]
    rw [heq, signalled_self] at hsame
    rw [hsame]
    exact refl b'
  | false =>
    have hstill : x'.consumer.signal = x.consumer.signal := by
      rcases hs with ⟨-, ht⟩ | ⟨v, -, ht⟩
      · exact ht
      · rw [ht, Signal.send_of_not_isHeld hheld]
    refine ⟨hsame, fun hheld' => ?_, ?_⟩
    · rw [hstill, hheld] at hheld'
      cases hheld'
    · rw [completion?, hstill]
      cases hv : x.consumer.signal.value with
      | none => exact .inl rfl
      | some v =>
        have hsome : b.consumer.signal.value = some v := by
          rcases hvalue with hnone | heq
          · cases hv.symm.trans hnone
          · exact heq.symm.trans hv
        right
        rcases hs with ⟨hs, -⟩ | ⟨w, hs, -⟩
        · rw [completion?, hs, hsome]
        · rw [completion?, hs, Signal.value_send_of_some hsome]

theorem step (hb : x.Shadows b) (hl : label.isOfSides) (hs : x.step? h label = some x') :
    ∃ b', b.step? h label = some b' ∧ x'.Shadows b' := by
  obtain ⟨t, ht, hsignal⟩ := step?_signalled hl hs b.consumer.signal
  rw [← hb.symm_same] at ht
  exact ⟨_, ht, hb.moved rfl hsignal.symm⟩

omit [Feed σ] in
theorem abort? (hb : x.Shadows b) : x.abort? = b.abort? := by
  rw [hb.same]
  rfl

omit [Feed σ] in
theorem letGo (hb : x.Shadows b) : (x.signalled x.consumer.signal.letGo).Shadows b where
  same := by
    rw [hb.same]
    rfl
  held hheld := by cases hheld
  value := hb.value

end Shadows

end Bridge

namespace Held

variable {x x' : Held σ} {b : Bridge σ} {labels : List Label}

/-- The handles say whether somebody waits for the completion, as `b` would have it. -/
structure Follows (x : Held σ) (b : Bridge σ) : Prop where
  shadows : x.bridge.Shadows b
  held : x.bridge.consumer.signal.isHeld = x.handles.hasCompletion

theorem isHeld_of_step {label : Bridge.Label} (hl : label.isOfSides) {b' : Bridge σ}
    (hs : b.step? h label = some b') :
    b'.consumer.signal.isHeld = b.consumer.signal.isHeld := by
  obtain ⟨s, -, ⟨hs, -⟩ | ⟨v, hs, -⟩⟩ := Bridge.step?_signalled hl hs {}
  · rw [hs]
  · rw [hs, Signal.isHeld_send]

theorem Follows.side {label : Bridge.Label} (hx : x.Follows b) (hl : label.isOfSides)
    (hs : x.step? h (.side label) = some x') :
    ∃ b', b.step? h label = some b' ∧ x'.Follows b' := by
  obtain ⟨y, hy, rfl⟩ := Option.map_eq_some_iff.mp hs
  obtain ⟨b', hb', hshadows⟩ := hx.shadows.step hl hy
  exact ⟨b', hb', hshadows, (isHeld_of_step hl hy).trans hx.held⟩

omit [Feed σ] in
theorem hasCompletion_of_use? {hs hs' : Handles} {a : Handles.Use} (ha : hs.use? a = some hs')
    (hc : hs.hasCompletion = false) : hs'.hasCompletion = false := by
  obtain ⟨hwhole, hpart⟩ : hs.isWhole = false ∧ hs.hasPart = false := by
    simpa [Handles.hasCompletion] using hc
  cases a with
  | split | await | dropBridge | dropCompletion => simp [Handles.use?, hwhole, hpart] at ha
  | cloneStopper | dropStopper =>
    simp only [Handles.use?, Option.ite_none_right_eq_some, Option.some.injEq] at ha
    obtain ⟨-, rfl⟩ := ha
    exact hc

theorem left?_eq (ha : x.bridge.abort? = none) (hs : Handles) :
    x.left? h hs = some (if x.handles.hasCompletion && !hs.hasCompletion then
      x.bridge.signalled x.bridge.consumer.signal.letGo else x.bridge) := by
  unfold left?
  split
  · exact Bridge.step?_eq_some_iff.mpr ⟨ha, .letGo⟩
  · rfl

theorem Follows.use {a : Handles.Use} (hx : x.Follows b) (ha : x.bridge.abort? = none)
    (hs : x.step? h (.use a) = some x') : x'.Follows b := by
  obtain ⟨hs', hu, hs⟩ := Option.bind_eq_some_iff.mp hs
  rw [left?_eq ha, Option.map_some, Option.some.injEq] at hs
  subst hs
  cases hc : x.handles.hasCompletion with
  | false => exact ⟨hx.shadows, hx.held.trans (hc.trans (hasCompletion_of_use? hu hc).symm)⟩
  | true =>
    cases hc' : hs'.hasCompletion with
    | true => exact ⟨hx.shadows, hx.held.trans (hc.trans hc'.symm)⟩
    | false => exact ⟨hx.shadows.letGo, hc'.symm⟩

theorem Follows.run (hh : h.IsCalm) {g : UInt32} (hx : x.Follows b) (hb : b.IsTended g)
    (hl : ∀ y ∈ labels, y.isOfSides) (hr : x.run? h labels = some x') :
    ∃ b', b.run? h (labels.filterMap Label.side?) = some b' ∧ x'.Follows b' := by
  induction labels generalizing x b with
  | nil =>
    cases hr
    exact ⟨b, rfl, hx⟩
  | cons y rest ih =>
    obtain ⟨next, hs, hrun⟩ := Option.bind_eq_some_iff.mp hr
    have hrest : ∀ z ∈ rest, z.isOfSides := fun z hz => hl z (List.mem_cons_of_mem y hz)
    cases y with
    | use a => exact ih (hx.use (hx.shadows.abort?.trans hb.alive) hs) hb hrest hrun
    | side label =>
      have hlabel : label.isOfSides := hl _ List.mem_cons_self
      obtain ⟨m, hm, hnext⟩ := hx.side hlabel hs
      obtain ⟨b', hb', hfollows⟩ := ih hnext (hb.step hh hlabel hm) hrest hrun
      exact ⟨b', by simp [Label.side?, Bridge.run?, hm, hb'], hfollows⟩

end Held

namespace Consumer

variable {exit? : Option (Exit × Nat)} {c c' : Consumer} {l l' : Link σ}

theorem Attended.panic? {g : UInt32} {p : Producer} (hi : c.Attended g p)
    (hs : c.Step h exit? l c' l') : c'.panic? = c.panic? := by
  cases hs with
  | @act call isHeld a rest hp =>
    simp only [Attended, hp] at hi
    cases a with
    | panic x => exact (hi.1 x List.mem_cons_self).elim
    | stop | finishStop | keep | setAside | releaseKept | publish => rfl
  | @drop part rest hp => exact (c.dropPart_frame l part).2
  | _ => rfl

end Consumer

namespace Bridge

end Bridge

structure Usage.Keeps (u : Usage σ) (taken : UInt32) (labels : List Bridge.Label) (b : Bridge σ) :
    Prop where
  sides : ∀ x ∈ labels, x.isOfSides
  run : (u.begin taken).bridge.run? u.handler labels = some b

namespace Held

end Held

end Handoff
