import Handoff.Liveness.Census
import Handoff.Proofs.Muster

/-! Generations identify what they were taken for, and every liveness is a switch of its own that
goes one way. -/
namespace Handoff

variable {σ : Type} [Feed σ] {h : Handler}

theorem toNat_nextGeneration (taken : UInt32) :
    (nextGeneration taken).toNat = (taken.toNat + 1) % UInt32.size := UInt32.toNat_add taken 1

namespace Switchboard

variable {b : Switchboard} {x : Step} {i : Nat} {s : Switch}

theorem taken_step (b : Switchboard) (x : Step) :
    (b.step x).1.taken = if x = .make then nextGeneration b.taken else b.taken := by
  cases x with
  | dropGuard g =>
    simp only [step, dropGuard]
    split <;> rfl
  | make | mark | store | guard | panicWithGuard => rfl

/-- What becomes of the switches: one more is made, the state of one is set, or nothing. -/
theorem switches_step (b : Switchboard) (x : Step) :
    (x = .make ∧ (b.step x).1.switches = b.switches ++ [{ generation := nextGeneration b.taken }]) ∨
      (∃ i l, (b.step x).1.switches = (b.put i l).switches ∧
        (x.isStore = false → b.ended? x = some i ∧ l = .terminated)) ∨
      (b.ended? x = none ∧ (b.step x).1.switches = b.switches) := by
  cases x with
  | make => exact .inl ⟨rfl, rfl⟩
  | mark i | panicWithGuard i p => exact .inr (.inl ⟨i, .terminated, rfl, fun _ => ⟨rfl, rfl⟩⟩)
  | store i isRunning => exact .inr (.inl ⟨i, .ofFlag isRunning, rfl, nofun⟩)
  | guard i => exact .inr (.inr ⟨rfl, rfl⟩)
  | dropGuard g =>
    -- a guard that was never made, one that is gone, one that is still there
    rcases hg : b.guards[g]? with _ | _ | i
    · exact .inr (.inr ⟨by simp [ended?, hg], by simp [step, dropGuard, hg]⟩)
    · exact .inr (.inr ⟨by simp [ended?, hg], by simp [step, dropGuard, hg]⟩)
    · exact .inr (.inl ⟨i, .terminated, by simp [step, dropGuard, hg], by simp [ended?, hg]⟩)

/-- A switch keeps its generation, and its state is set in the steps that end it. -/
theorem getElem?_step (hi : b.switches[i]? = some s) : ∃ s' : Switch,
    (b.step x).1.switches[i]? = some s' ∧ s'.generation = s.generation ∧
      (x.isStore = false → s'.state = if b.ended? x = some i then .terminated else s.state) := by
  obtain ⟨hlt, -⟩ := List.getElem?_eq_some_iff.mp hi
  rcases b.switches_step x with ⟨rfl, heq⟩ | ⟨j, l, heq, hended⟩ | ⟨hended, heq⟩
  · rw [heq, List.getElem?_append_left hlt]
    exact ⟨s, hi, rfl, fun _ => rfl⟩
  · rw [heq, put, List.getElem?_modify, hi]
    refine ⟨_, rfl, ?_, fun hx => ?_⟩
    · dsimp only
      split <;> rfl
    · obtain ⟨hj, rfl⟩ := hended hx
      simp only [hj, Option.some.injEq]
      split <;> rfl
  · rw [heq, hended]
    exact ⟨s, hi, rfl, fun _ => rfl⟩

theorem getElem?_step_of_none (hi : b.switches[i]? = none)
    (hs : (b.step x).1.switches[i]? = some s) :
    x = .make ∧ i = b.switches.length ∧ s = { generation := nextGeneration b.taken } := by
  rcases b.switches_step x with ⟨rfl, heq⟩ | ⟨j, l, heq, -⟩ | ⟨-, heq⟩
  · have hle := List.getElem?_eq_none_iff.mp hi
    rw [heq, List.getElem?_append_right hle, List.getElem?_singleton] at hs
    split at hs
    · next hzero =>
      cases hs
      exact ⟨rfl, by omega, rfl⟩
    · cases hs
  · rw [heq, put, List.getElem?_modify, hi] at hs
    cases hs
  · rw [heq, hi] at hs
    cases hs

theorem guards_dropGuard (b : Switchboard) (g : Nat) :
    (b.dropGuard g).guards = b.guards.set g none := by
  have hset (hg : ∀ i, b.guards[g]? ≠ some (some i)) : b.guards = b.guards.set g none := by
    apply List.ext_getElem?
    intro k
    rw [List.getElem?_set]
    split
    · next hk =>
      subst hk
      rcases hat : b.guards[g]? with _ | _ | i
      · simp [List.getElem?_eq_none_iff.mp hat]
      · obtain ⟨hlt, -⟩ := List.getElem?_eq_some_iff.mp hat
        simp [hlt]
      · exact (hg i hat).elim
    · rfl
  unfold dropGuard
  split
  · rfl
  · next hg => exact hset hg

end Switchboard

namespace Bridge

variable {b b' : Bridge σ} {label : Label}

/-- The flag of a bridge is set where its producer drops the guard, and nowhere else. -/
theorem liveness_of_step (hs : b.step? h label = some b') :
    b'.link.liveness = if b.marks label then .terminated else b.link.liveness := by
  cases (step?_eq_some_iff.mp hs).2 with
  | produce hp hside => cases hside <;> simp_all [marks]
  | consume hside => exact hside.frame.liveness
  | raise => exact b.link.aside_raise.liveness
  | wake => exact b.link.aside_wake.liveness
  | publish x => exact (b.link.aside_publish x).liveness
  | loseConsumer | letGo => rfl

end Bridge

/-- The generation of a creation is the one it took, or the last one if it took none. -/
theorem Source.generation_create (s : Source σ) (config : ThreadRequest) (taken : UInt32)
    (es : List Event) :
    (s.create config taken es).taken =
        (if s.fault?.isNone then nextGeneration taken else taken) ∧
      (s.create config taken es).bridge.generation = (s.create config taken es).taken := by
  unfold create
  cases hf : s.fault? with
  | some fault => cases fault <;> exact ⟨rfl, rfl⟩
  | none =>
    simp only [Creation.spawn]
    rcases config.spawnFault? (nextGeneration taken) with _ | _ | _
    · exact ⟨rfl, rfl⟩
    · exact ⟨rfl, rfl⟩
    · simp only [Creation.refuse]
      split <;> exact ⟨rfl, rfl⟩

namespace Usage

theorem generation_attempt (u : Usage σ) (isInside : Bool) (taken : UInt32) :
    (u.attempt isInside taken).taken =
        (if u.starts isInside then nextGeneration taken else taken) ∧
      (u.attempt isInside taken).bridge.generation = (u.attempt isInside taken).taken := by
  cases isInside with
  | false => exact ⟨rfl, rfl⟩
  | true =>
    rcases hpub : Feed.publishAll u.source.feed (u.before.filterMap CallerAct.early?) with ⟨f, es⟩
    have hcreate := Source.generation_create { u.source with feed := f } u.config taken es
    have hletGo (b : Bridge σ) :
        ((b.step? u.handler .letGo).getD b).generation = b.generation := by
      cases hs : b.step? u.handler .letGo with
      | none => rfl
      | some next => exact Bridge.generation_of_step hs
    simp only [attempt, if_true, starts, Bool.true_and, begin, hpub]
    split
    · exact hcreate
    · refine ⟨hcreate.1, Eq.trans ?_ hcreate.2⟩
      obtain ⟨-, -, hacts⟩ := Bridge.callerActs_frame (h := u.handler)
        (({ u.source with feed := f } : Source σ).create u.config taken es).bridge u.afterCreate
      rw [← hacts]
      split
      · exact hletGo _
      · rfl

theorem running_attempt (u : Usage σ) (isInside : Bool) (taken : UInt32)
    (hc : (u.attempt isInside taken).failure? = none) :
    (u.attempt isInside taken).bridge.link.liveness = .running := by
  cases isInside with
  | false => cases hc
  | true =>
    obtain ⟨p, -, hf⟩ := u.fresh_begin taken hc
    exact hf.liveness

theorem alive_attempt (u : Usage σ) (isInside : Bool) (taken : UInt32) :
    (u.attempt isInside taken).bridge.abort? = none := by
  cases isInside with
  | false => rfl
  | true => exact (u.tended_begin taken).alive

end Usage

namespace Census

variable {m m' : Census σ} {d : Deed σ} {deeds : List (Deed σ)} {w : Id} {l : Liveness}
  {g : UInt32}

inductive Step (m : Census σ) : Deed σ → Census σ → Prop where
  | use (x) : Step m (.use x) { m with board := (m.board.step x).1 }
  | create (isInside u) :
    Step m (.create isInside u)
      { board := { m.board with taken := (u.attempt isInside m.board.taken).taken }
        fleet := m.fleet ++ [(u, u.attempt isInside m.board.taken)] }
  | move {i label u c b} (hi : m.fleet[i]? = some (u, c))
      (hs : c.bridge.step? u.handler label = some b) :
    Step m (.move i label) { m with fleet := m.fleet.set i (u, { c with bridge := b }) }

theorem step?_eq_some_iff : m.step? d = some m' ↔ m.fleet.hasDied = false ∧ m.Step d m' := by
  constructor
  · intro hs
    cases hdied : m.fleet.hasDied with
    | true => simp [step?, hdied] at hs
    | false =>
      simp only [step?, hdied, Bool.false_eq_true, if_false] at hs
      refine ⟨rfl, ?_⟩
      cases d with
      | use x =>
        cases hs
        exact .use x
      | create isInside u =>
        cases hs
        exact .create isInside u
      | move i label =>
        obtain ⟨f, hf, rfl⟩ := Option.map_eq_some_iff.mp hs
        obtain ⟨-, u, c, b, hi, hb, rfl⟩ := Fleet.step?_eq_some_iff.mp hf
        exact .move hi hb
  · rintro ⟨hdied, hs⟩
    cases hs with
    | use x => simp [step?, hdied]
    | create isInside u => simp [step?, hdied]
    | move hi hs =>
      have hf := Fleet.step?_eq_some_iff.mpr ⟨hdied, _, _, _, hi, hs, rfl⟩
      simp [step?, hdied, hf]

theorem run?_eq_foldlM (m : Census σ) (deeds : List (Deed σ)) :
    m.run? deeds = deeds.foldlM step? m :=
  eq_foldlM (fun _ => rfl) (fun _ _ _ => rfl) m deeds

theorem run?_append (m : Census σ) (before after : List (Deed σ)) :
    m.run? (before ++ after) = (m.run? before).bind fun next => next.run? after := by
  simp only [run?_eq_foldlM, List.foldlM_append]
  rfl

theorem Step.taken (hs : m.Step d m') :
    m'.board.taken = if d.takes then nextGeneration m.board.taken else m.board.taken := by
  cases hs with
  | use x => simpa [Deed.takes] using m.board.taken_step x
  | create isInside u => exact (u.generation_attempt isInside m.board.taken).1
  | move => rfl

/-- A switch keeps its generation in every deed, and its state in all that do not end it. -/
theorem Step.getElem?_switches {i : Nat} {s : Switch} (hs : m.Step d m')
    (hi : m.board.switches[i]? = some s) : ∃ s' : Switch,
      m'.board.switches[i]? = some s' ∧ s'.generation = s.generation ∧
        (d.isStore = false →
          s'.state = if m.ended? d = some (.switch i) then .terminated else s.state) := by
  cases hs with
  | use x =>
    obtain ⟨s', hi', hgeneration, hstate⟩ := Switchboard.getElem?_step (x := x) hi
    refine ⟨s', hi', hgeneration, fun hx => ?_⟩
    rw [hstate hx]
    simp [ended?]
  | create => exact ⟨s, hi, rfl, fun _ => rfl⟩
  | move =>
    refine ⟨s, hi, rfl, fun _ => ?_⟩
    rw [if_neg (by simp [ended?])]

theorem Step.getElem?_fleet {i : Nat} {u : Usage σ} {c : Creation σ} (hs : m.Step d m')
    (hi : m.fleet[i]? = some (u, c)) : ∃ b : Bridge σ,
      m'.fleet[i]? = some (u, { c with bridge := b }) ∧ b.generation = c.bridge.generation ∧
        b.link.liveness =
          if m.ended? d = some (.bridge i) then .terminated else c.bridge.link.liveness := by
  obtain ⟨hlt, -⟩ := List.getElem?_eq_some_iff.mp hi
  cases hs with
  | use x =>
    refine ⟨c.bridge, hi, rfl, ?_⟩
    rw [if_neg (by simp [ended?])]
  | create => exact ⟨c.bridge, (List.getElem?_append_left hlt).trans hi, rfl, rfl⟩
  | @move j label v c' b hj hb =>
    by_cases hij : j = i
    · subst hij
      cases hi.symm.trans hj
      refine ⟨b, List.getElem?_set_self hlt, Bridge.generation_of_step hb, ?_⟩
      simp only [Bridge.liveness_of_step hb, ended?, hi, Option.any_some]
      split <;> simp
    · refine ⟨c.bridge, (List.getElem?_set_ne hij).trans hi, rfl, ?_⟩
      simp [ended?, hij]

theorem Step.generation?_of_some (hs : m.Step d m') (hg : m.generation? w = some g) :
    m'.generation? w = some g := by
  cases w with
  | switch i =>
    obtain ⟨s, hi, rfl⟩ := Option.map_eq_some_iff.mp hg
    obtain ⟨s', hi', hgeneration, -⟩ := hs.getElem?_switches hi
    exact Option.map_eq_some_iff.mpr ⟨s', hi', hgeneration⟩
  | bridge i =>
    obtain ⟨⟨u, c⟩, hi, rfl⟩ := Option.map_eq_some_iff.mp hg
    obtain ⟨b, hi', hgeneration, -⟩ := hs.getElem?_fleet hi
    exact Option.map_eq_some_iff.mpr ⟨_, hi', hgeneration⟩

theorem Step.generation?_of_takes (hs : m.Step d m') (hd : d.takes) :
    ∃ w, m.born? d = some w ∧ m'.generation? w = some m'.board.taken := by
  cases hs with
  | use x =>
    have hx : x = .make := by simpa [Deed.takes] using hd
    subst hx
    exact ⟨_, rfl, by simp [generation?, Switchboard.step, Switchboard.make]⟩
  | create isInside u =>
    exact ⟨_, rfl, by simp [generation?, (u.generation_attempt isInside m.board.taken).2]⟩
  | move => cases hd

omit [Feed σ] in
theorem liveness?_bridge_eq_some_iff {i : Nat} : m.liveness? (.bridge i) = some l ↔
    ∃ u c, m.fleet[i]? = some (u, c) ∧ c.failure? = none ∧ c.bridge.link.liveness = l := by
  simp [liveness?, Option.bind_eq_some_iff]

/-- A liveness ends in the deeds that end it and is left alone by all others. -/
theorem Step.liveness?_of_some (hs : m.Step d m') (hd : d.isStore = false)
    (hl : m.liveness? w = some l) :
    m'.liveness? w = some (if m.ended? d = some w then .terminated else l) := by
  cases w with
  | switch i =>
    obtain ⟨s, hi, rfl⟩ := Option.map_eq_some_iff.mp hl
    obtain ⟨s', hi', -, hstate⟩ := hs.getElem?_switches hi
    exact Option.map_eq_some_iff.mpr ⟨s', hi', hstate hd⟩
  | bridge i =>
    obtain ⟨u, c, hi, hfailure, rfl⟩ := liveness?_bridge_eq_some_iff.mp hl
    obtain ⟨b, hi', -, hlive⟩ := hs.getElem?_fleet hi
    exact liveness?_bridge_eq_some_iff.mpr ⟨u, _, hi', hfailure, hlive⟩

/-- Only what is made just now has a liveness for the first time, and it runs. -/
theorem Step.liveness?_of_none (hs : m.Step d m') (hl : m.liveness? w = none)
    (hl' : m'.liveness? w = some l) : m.born? d = some w ∧ l = .running := by
  cases w with
  | switch i =>
    cases hs with
    | use x =>
      have hi := Option.map_eq_none_iff.mp hl
      obtain ⟨s, hs, rfl⟩ := Option.map_eq_some_iff.mp hl'
      obtain ⟨rfl, rfl, rfl⟩ := Switchboard.getElem?_step_of_none hi hs
      exact ⟨rfl, rfl⟩
    | create | move => cases hl.symm.trans hl'
  | bridge i =>
    obtain ⟨u, c, hi, hfailure, rfl⟩ := liveness?_bridge_eq_some_iff.mp hl'
    have hnot : m.fleet[i]? ≠ some (u, c) := by
      intro hold
      rw [liveness?_bridge_eq_some_iff.mpr ⟨u, c, hold, hfailure, rfl⟩] at hl
      cases hl
    cases hs with
    | use x => exact (hnot hi).elim
    | create isInside u' =>
      rcases Nat.lt_or_ge i m.fleet.length with hlt | hge
      · exact (hnot ((List.getElem?_append_left hlt).symm.trans hi)).elim
      · rw [List.getElem?_append_right hge, List.getElem?_singleton] at hi
        split at hi
        · next hzero =>
          cases hi
          have hlast : i = m.fleet.length := by omega
          exact ⟨by rw [hlast]; rfl, u.running_attempt isInside m.board.taken hfailure⟩
        · cases hi
    | @move j label v c' b hj hb =>
      obtain ⟨hlt, -⟩ := List.getElem?_eq_some_iff.mp hj
      by_cases hij : j = i
      · subst hij
        rw [List.getElem?_set_self hlt] at hi
        cases hi
        have hold := liveness?_bridge_eq_some_iff.mpr ⟨u, c', hj, hfailure, rfl⟩
        cases hl.symm.trans hold
      · exact (hnot ((List.getElem?_set_ne hij).symm.trans hi)).elim

/-- A deed in the middle of a run, with what was there before and after it. -/
structure Moment (m : Census σ) (deeds : List (Deed σ)) where
  before : List (Deed σ)
  deed : Deed σ
  after : List (Deed σ)
  here : Census σ
  next : Census σ
  split : deeds = before ++ deed :: after
  run : m.run? before = some here
  step : here.step? deed = some next

namespace Moment

def first {next : Census σ} (rest : List (Deed σ)) (hs : m.step? d = some next) :
    Moment m (d :: rest) where
  before := []
  deed := d
  after := rest
  here := m
  next
  split := rfl
  run := rfl
  step := hs

def later {next : Census σ} {rest : List (Deed σ)} (hs : m.step? d = some next)
    (t : Moment next rest) : Moment m (d :: rest) where
  before := d :: t.before
  deed := t.deed
  after := t.after
  here := t.here
  next := t.next
  split := congrArg (d :: ·) t.split
  run := by rw [run?, hs, Option.bind_some, t.run]
  step := t.step

theorem eq_first_or_later {next : Census σ} {rest : List (Deed σ)} (hs : m.step? d = some next)
    (t : Moment m (d :: rest)) : t = first rest hs ∨ ∃ t' : Moment next rest, t = t'.later hs := by
  obtain ⟨before, deed, after, here, next', hsplit, hrun, hstep⟩ := t
  cases before with
  | nil =>
    obtain ⟨rfl, rfl⟩ := List.cons.inj hsplit
    cases hrun
    cases hs.symm.trans hstep
    exact .inl rfl
  | cons d' before =>
    obtain ⟨rfl, hrest⟩ := List.cons.inj hsplit
    rw [run?, hs, Option.bind_some] at hrun
    exact .inr ⟨⟨before, deed, after, here, next', hrest, hrun, hstep⟩, rfl⟩

theorem steps (t : Moment m deeds) : t.here.Step t.deed t.next := (step?_eq_some_iff.mp t.step).2

theorem run_after (t : Moment m deeds) (hr : m.run? deeds = some m') :
    t.next.run? t.after = some m' := by
  rw [t.split, run?_append, t.run, Option.bind_some, run?, t.step, Option.bind_some] at hr
  exact hr

def Ends (t : Moment m deeds) (w : Id) : Prop :=
  (t.here.liveness? w).isSome ∧ t.here.ended? t.deed = some w

theorem exists_ends_cons {next : Census σ} {rest : List (Deed σ)} (hs : m.step? d = some next) :
    (∃ t : Moment m (d :: rest), t.Ends w) ↔
      ((m.liveness? w).isSome ∧ m.ended? d = some w) ∨ ∃ t : Moment next rest, t.Ends w := by
  constructor
  · rintro ⟨t, ht⟩
    rcases t.eq_first_or_later hs with rfl | ⟨t, rfl⟩
    · exact .inl ht
    · exact .inr ⟨t, ht⟩
  · rintro (hfirst | ⟨t, ht⟩)
    · exact ⟨first rest hs, hfirst⟩
    · exact ⟨t.later hs, ht⟩

theorem run_from (t : Moment m deeds) (hr : m.run? deeds = some m') :
    t.here.run? (t.deed :: t.after) = some m' := by
  rw [run?, t.step, Option.bind_some]
  exact t.run_after hr

theorem mem (t : Moment m deeds) : t.deed ∈ deeds := by
  have hmem : t.deed ∈ t.before ++ t.deed :: t.after :=
    List.mem_append_right _ List.mem_cons_self
  rwa [← t.split] at hmem

end Moment

section Numbers

theorem numbers_of_step {next : Census σ} {rest : List (Deed σ)} (hs : m.step? d = some next) :
    m.numbers (d :: rest) =
      (if d.takes then [nextGeneration m.board.taken] else []) ++ next.numbers rest := by
  have htaken := (step?_eq_some_iff.mp hs).2.taken
  have hmoves : nextGeneration m.board.taken ≠ m.board.taken := by
    intro hsame
    have hnat := congrArg UInt32.toNat hsame
    have hlt := m.board.taken.toNat_lt
    rw [toNat_nextGeneration] at hnat
    unfold UInt32.size at hnat
    omega
  simp only [numbers, hs]
  cases hd : d.takes with
  | true =>
    rw [hd, if_pos rfl] at htaken
    simp [htaken, hmoves]
  | false =>
    rw [hd, if_neg Bool.false_ne_true] at htaken
    simp [htaken]

theorem numbers_append {before after : List (Deed σ)} (hr : m.run? before = some m') :
    m.numbers (before ++ after) = m.numbers before ++ m'.numbers after := by
  induction before generalizing m with
  | nil =>
    cases hr
    rfl
  | cons d rest ih =>
    obtain ⟨next, hs, hr⟩ := Option.bind_eq_some_iff.mp hr
    rw [List.cons_append, numbers_of_step hs, numbers_of_step hs, ih hr, List.append_assoc]

theorem length_numbers (hr : m.run? deeds = some m') :
    (m.numbers deeds).length = deeds.countP Deed.takes := by
  induction deeds generalizing m with
  | nil => rfl
  | cons d rest ih =>
    obtain ⟨next, hs, hr⟩ := Option.bind_eq_some_iff.mp hr
    rw [numbers_of_step hs, List.length_append, ih hr, List.countP_cons]
    cases d.takes <;> simp [Nat.add_comm]

/-- The counter counts on from where it stands, modulo 2 ^ 32. -/
theorem toNat_numbers (hr : m.run? deeds = some m') {k : Nat}
    (hk : (m.numbers deeds)[k]? = some g) :
    g.toNat = (m.board.taken.toNat + (k + 1)) % UInt32.size := by
  induction deeds generalizing m k with
  | nil => cases hk
  | cons d rest ih =>
    obtain ⟨next, hs, hr⟩ := Option.bind_eq_some_iff.mp hr
    have htaken := (step?_eq_some_iff.mp hs).2.taken
    rw [numbers_of_step hs] at hk
    cases hd : d.takes with
    | false =>
      rw [hd, if_neg Bool.false_ne_true] at hk htaken
      rw [← htaken]
      exact ih hr hk
    | true =>
      rw [hd, if_pos rfl] at hk htaken
      have hnext := toNat_nextGeneration m.board.taken
      cases k with
      | zero =>
        cases hk
        exact hnext
      | succ k =>
        -- the rest counts on from a counter that has moved by one, and may have wrapped
        have hrest := ih hr hk
        rw [htaken, hnext] at hrest
        unfold UInt32.size at hrest ⊢
        omega

theorem generation?_of_run (hr : m.run? deeds = some m') (hg : m.generation? w = some g) :
    m'.generation? w = some g := by
  rw [run?_eq_foldlM] at hr
  exact foldlM_keeps (P := fun m => m.generation? w = some g)
    (fun _ _ _ _ hg hs => (step?_eq_some_iff.mp hs).2.generation?_of_some hg) hg hr

/-- What takes the number `k` of a run has it to the end. -/
theorem Moment.generation? (t : Moment m deeds) (hr : m.run? deeds = some m')
    (ht : t.deed.takes) :
    ∃ w g, t.here.born? t.deed = some w ∧
      (m.numbers deeds)[t.before.countP Deed.takes]? = some g ∧ m'.generation? w = some g := by
  obtain ⟨w, hborn, hgen⟩ := t.steps.generation?_of_takes ht
  have htaken := t.steps.taken
  have hnumbers : m.numbers deeds =
      m.numbers t.before ++ nextGeneration t.here.board.taken :: t.next.numbers t.after := by
    calc m.numbers deeds = m.numbers (t.before ++ t.deed :: t.after) := congrArg m.numbers t.split
      _ = m.numbers t.before ++ t.here.numbers (t.deed :: t.after) := numbers_append t.run
      _ = _ := by rw [numbers_of_step t.step, if_pos ht, List.singleton_append]
  rw [if_pos ht] at htaken
  refine ⟨w, _, hborn, ?_, generation?_of_run (t.run_after hr) hgen⟩
  rw [hnumbers, ← length_numbers t.run, List.getElem?_append_right (Nat.le_refl _), Nat.sub_self,
    htaken]
  rfl

end Numbers

section Livenesses

theorem liveness?_of_run (hd : ∀ d ∈ deeds, d.isStore = false) (hr : m.run? deeds = some m')
    (hl : m.liveness? w = some l) :
    ∃ l', m'.liveness? w = some l' ∧
      (l' = .terminated ↔ l = .terminated ∨ ∃ t : Moment m deeds, t.Ends w) := by
  induction deeds generalizing m l with
  | nil =>
    cases hr
    refine ⟨l, hl, .inl, ?_⟩
    rintro (hl | ⟨t, -⟩)
    · exact hl
    · cases t.mem
  | cons d rest ih =>
    obtain ⟨next, hs, hr⟩ := Option.bind_eq_some_iff.mp hr
    have hnext := (step?_eq_some_iff.mp hs).2.liveness?_of_some (hd d List.mem_cons_self) hl
    obtain ⟨l', hl', hiff⟩ := ih (fun d hm => hd d (List.mem_cons_of_mem _ hm)) hr hnext
    refine ⟨l', hl', ?_⟩
    rw [hiff, Moment.exists_ends_cons hs, hl]
    by_cases hended : m.ended? d = some w <;> simp [hended]

/-- A liveness that is made in a run has ended if one of the moments since then ends it. -/
theorem terminated_iff (hd : ∀ d ∈ deeds, d.isStore = false) (hr : m.run? deeds = some m')
    (hnone : m.liveness? w = none) (hl : m'.liveness? w = some l) :
    l = .terminated ↔ ∃ t : Moment m deeds, t.Ends w := by
  induction deeds generalizing m with
  | nil =>
    cases hr
    cases hl.symm.trans hnone
  | cons d rest ih =>
    obtain ⟨next, hs, hr⟩ := Option.bind_eq_some_iff.mp hr
    have hrest : ∀ d ∈ rest, d.isStore = false := fun d hm => hd d (List.mem_cons_of_mem _ hm)
    have hlater : (∃ t : Moment m (d :: rest), t.Ends w) ↔ ∃ t : Moment next rest, t.Ends w := by
      rw [Moment.exists_ends_cons hs]
      simp [hnone]
    rw [hlater]
    cases hnext : next.liveness? w with
    | none => exact ih hrest hr hnext
    | some l₀ =>
      -- made in this deed, and running: from here on the lemma above applies
      obtain ⟨-, rfl⟩ := (step?_eq_some_iff.mp hs).2.liveness?_of_none hnone hnext
      obtain ⟨l', hl', hiff⟩ := liveness?_of_run hrest hr hnext
      cases hl.symm.trans hl'
      simpa using hiff

end Livenesses

section Guards

variable {i k : Nat}

/-- A guard is there from the deed that makes it to the one that drops it. -/
theorem Step.guards (hs : m.Step d m') :
    m'.board.guards.length = m.board.guards.length + (if d.isGuard then 1 else 0) ∧
      (m'.board.guards[k]? = some (some i) ↔
        (m.board.guards[k]? = some (some i) ∧ d ≠ .use (.dropGuard k)) ∨
          (d = .use (.guard i) ∧ m.board.guards.length = k)) := by
  cases hs with
  | use x =>
    cases x with
    | make | mark | store | panicWithGuard =>
      simp [Switchboard.step, Switchboard.make, Switchboard.put, Deed.isGuard]
    | guard j =>
      refine ⟨by simp [Switchboard.step, Deed.isGuard], ?_⟩
      simp only [Switchboard.step, List.getElem?_append, List.getElem?_singleton]
      split
      · next hlt => simp [Nat.ne_of_gt hlt]
      · next hge =>
        have hnone : m.board.guards[k]? = none := List.getElem?_eq_none_iff.mpr (by omega)
        have hzero : k - m.board.guards.length = 0 ↔ m.board.guards.length = k := by omega
        simp [hnone, hzero, and_comm]
    | dropGuard k' =>
      refine ⟨by simp [Switchboard.step, Switchboard.guards_dropGuard, Deed.isGuard], ?_⟩
      simp only [Switchboard.step, Switchboard.guards_dropGuard, List.getElem?_set]
      split
      · next hk => simp [hk]
      · next hk => simp [hk]
  | create | move => simp [Deed.isGuard]

/-- The guards that are there are those that were made, in their order, and not dropped since. -/
theorem guards_of_run (hr : m.run? deeds = some m') :
    m'.board.guards[k]? = some (some i) ↔
      (m.board.guards[k]? = some (some i) ∧ .use (.dropGuard k) ∉ deeds) ∨
        ∃ before after, deeds = before ++ .use (.guard i) :: after ∧
          m.board.guards.length + before.countP Deed.isGuard = k ∧
          .use (.dropGuard k) ∉ after := by
  induction deeds generalizing m with
  | nil =>
    cases hr
    simp
  | cons d rest ih =>
    obtain ⟨next, hs, hr⟩ := Option.bind_eq_some_iff.mp hr
    obtain ⟨hlength, hguards⟩ := (step?_eq_some_iff.mp hs).2.guards (k := k) (i := i)
    rw [ih hr, hguards, hlength]
    -- held before the first deed, made in it, or made in a later one
    constructor
    · rintro (⟨⟨hheld, hd⟩ | ⟨rfl, hk⟩, hrest⟩ | ⟨before, after, rfl, hk, hafter⟩)
      · exact .inl ⟨hheld, by simp [hrest, Ne.symm hd]⟩
      · exact .inr ⟨[], rest, rfl, hk, hrest⟩
      · refine .inr ⟨d :: before, after, rfl, ?_, hafter⟩
        rw [List.countP_cons]
        omega
    · rintro (⟨hheld, hd⟩ | ⟨before, after, hsplit, hk, hafter⟩)
      · rw [List.mem_cons, not_or] at hd
        exact .inl ⟨.inl ⟨hheld, Ne.symm hd.1⟩, hd.2⟩
      · cases before with
        | nil =>
          obtain ⟨rfl, rfl⟩ := List.cons.inj hsplit
          exact .inl ⟨.inr ⟨rfl, hk⟩, hafter⟩
        | cons d' before =>
          obtain ⟨rfl, rfl⟩ := List.cons.inj hsplit
          rw [List.countP_cons] at hk
          exact .inr ⟨before, after, rfl, by omega, hafter⟩

end Guards

/-- Nothing but a bridge can take the process with it, and it does so in a step of its own. -/
theorem exists_run (hd : ∀ d ∈ deeds, d.isMove = false) (hm : m.fleet.hasDied = false) :
    ∃ m', m.run? deeds = some m' := by
  induction deeds generalizing m with
  | nil => exact ⟨m, rfl⟩
  | cons d rest ih =>
    have hstep : ∃ next, m.step? d = some next ∧ next.fleet.hasDied = false := by
      cases d with
      | use x => exact ⟨_, step?_eq_some_iff.mpr ⟨hm, .use x⟩, hm⟩
      | create isInside u =>
        refine ⟨_, step?_eq_some_iff.mpr ⟨hm, .create isInside u⟩, ?_⟩
        simpa [Fleet.hasDied, u.alive_attempt isInside m.board.taken] using hm
      | move i label => cases hd _ List.mem_cons_self
    obtain ⟨next, hs, halive⟩ := hstep
    obtain ⟨m', hr⟩ := ih (fun d hm => hd d (List.mem_cons_of_mem _ hm)) halive
    exact ⟨m', by rw [run?, hs, Option.bind_some, hr]⟩

/-- The numbers that are taken in a run, and what they are the generations of. -/
structure Numbered (n : UInt32) (deeds : List (Deed σ)) (m : Census σ) : Prop where
  length : ((start (σ := σ) n).numbers deeds).length = deeds.countP Deed.takes
  /-- They count on from the start, modulo 2 ^ 32. -/
  counted : ∀ {k g}, ((start n).numbers deeds)[k]? = some g →
    g.toNat = (n.toNat + (k + 1)) % UInt32.size
  distinct : ∀ {i j g g'}, i < j → j < i + UInt32.size → ((start n).numbers deeds)[i]? = some g →
    ((start n).numbers deeds)[j]? = some g' → g ≠ g'
  /-- Exactly one is taken in a deed that takes any. -/
  taken : ∀ t : Moment (start n) deeds, t.next.board.taken =
    if t.deed.takes then nextGeneration t.here.board.taken else t.here.board.taken
  /-- What took a number has it as its generation to the end. -/
  carried : ∀ t : Moment (start n) deeds, t.deed.takes → ∃ w g, t.here.born? t.deed = some w ∧
    ((start n).numbers deeds)[t.before.countP Deed.takes]? = some g ∧ m.generation? w = some g

/-- In a run without a store every liveness is a switch of its own that goes one way. -/
structure Switched (n : UInt32) (deeds : List (Deed σ)) (m : Census σ) : Prop where
  terminated_iff : ∀ {w l}, m.liveness? w = some l →
    (l = .terminated ↔ ∃ t : Moment (start n) deeds, t.Ends w)
  lasts : ∀ (t : Moment (start n) deeds) {w l}, t.here.liveness? w = some l →
    ∃ l', m.liveness? w = some l' ∧ (l = .terminated → l' = .terminated)
  /-- What ends another liveness, or none, leaves this one alone. -/
  own : ∀ (t : Moment (start n) deeds) {w l}, t.here.liveness? w = some l →
    t.here.ended? t.deed ≠ some w → t.next.liveness? w = some l
  born : ∀ (t : Moment (start n) deeds) {w l}, t.here.liveness? w = none →
    t.next.liveness? w = some l → t.here.born? t.deed = some w ∧ l = .running
  /-- A guard belongs to the liveness that it was made of, until it is dropped. -/
  guards : ∀ (t : Moment (start n) deeds) {k i}, t.here.board.guards[k]? = some (some i) ↔
    ∃ before after, t.before = before ++ .use (.guard i) :: after ∧
      before.countP Deed.isGuard = k ∧ .use (.dropGuard k) ∉ after

variable {n : UInt32}

theorem numbered_of_run (hr : (start n).run? deeds = some m) : Numbered n deeds m where
  length := length_numbers hr
  counted hk := toNat_numbers hr hk
  distinct {i j g g'} hij hji hi hj hsame := by
    have hi := toNat_numbers hr hi
    have hj := toNat_numbers hr hj
    rw [hsame] at hi
    unfold UInt32.size at hi hj hji
    omega
  taken t := t.steps.taken
  carried t ht := t.generation? hr ht

theorem switched_of_run (hd : ∀ d ∈ deeds, d.isStore = false)
    (hr : (start n).run? deeds = some m) : Switched n deeds m where
  terminated_iff {w l} hl := by
    have hnone : (start (σ := σ) n).liveness? w = none := by cases w <;> rfl
    exact terminated_iff hd hr hnone hl
  lasts t {w l} hl := by
    have hlater : ∀ d ∈ t.deed :: t.after, d.isStore = false := by
      intro d hm
      apply hd
      have hmem : d ∈ t.before ++ t.deed :: t.after := List.mem_append_right _ hm
      rwa [← t.split] at hmem
    obtain ⟨l', hl', hiff⟩ := liveness?_of_run hlater (t.run_from hr) hl
    exact ⟨l', hl', fun hended => hiff.mpr (.inl hended)⟩
  own t {w l} hl hne := by
    rw [t.steps.liveness?_of_some (hd _ t.mem) hl, if_neg hne]
  born t {w l} hnone hl := t.steps.liveness?_of_none hnone hl
  guards t {k i} := by
    have hguards := guards_of_run (k := k) (i := i) t.run
    simpa [start] using hguards

/-- **Generations identify what took them, and every liveness is a switch of its own that goes one
way**, whatever is created, made, marked, guarded and dropped, and in whatever order. -/
theorem numbered_and_switched (n : UInt32) (deeds : List (Deed σ)) :
    ((∀ d ∈ deeds, d.isMove = false) → ∃ m, (start n).run? deeds = some m) ∧
      ∀ m, (start n).run? deeds = some m →
        Numbered n deeds m ∧ ((∀ d ∈ deeds, d.isStore = false) → Switched n deeds m) := by
  constructor
  · intro hd
    exact exists_run hd rfl
  · intro m hr
    exact ⟨numbered_of_run hr, fun hd => switched_of_run hd hr⟩

/-- Two livenesses, one that a panic ends, and creations that fail before and after their number is
taken. Of the guards of the first liveness one is dropped; the one bridge that was made leaves its
loop. -/
def crowded : List (Deed Script) :=
  let made : Usage Script := { source := { feed := {} }, style := .script }
  let refused := { made with source := { feed := {}, fault? := some (.panicked (.made "start")) } }
  [.use .make, .create true made, .create true refused, .use (.guard 0),
    .create true { made with config := { stackSize := some Config.stackLimit } },
    .create true { made with config := { namePrefix := "a\x00b" } }, .create false made,
    .use .make, .use (.guard 0), .use .make, .use (.panicWithGuard 2 (.made "unwound")),
    .move 0 .produce, .move 0 .produce, .use (.dropGuard 1), .use (.dropGuard 1),
    .move 0 .produce, .move 0 .produce, .move 0 .produce]

theorem numbered_and_switched_crowded : ∃ m, (start 0xfffffffe).run? crowded = some m ∧
    (start 0xfffffffe).numbers crowded = [0xffffffff, 0, 1, 2, 3, 4] ∧
    [Id.switch 0, .switch 1, .switch 2, .bridge 0, .bridge 1].map m.liveness? =
      [some .terminated, some .running, some .terminated, some .terminated, none] ∧
    [Id.switch 1, .bridge 0, .bridge 2, .bridge 3].map m.generation? =
      [some 3, some 0, some 1, some 2] ∧
    Numbered 0xfffffffe crowded m ∧ Switched 0xfffffffe crowded m := by
  obtain ⟨-, hall⟩ := numbered_and_switched 0xfffffffe crowded
  have hrun : (((start 0xfffffffe).run? crowded).map fun m =>
      ([Id.switch 0, .switch 1, .switch 2, .bridge 0, .bridge 1].map m.liveness?,
        [Id.switch 1, .bridge 0, .bridge 2, .bridge 3].map m.generation?)) =
      some ([some .terminated, some .running, some .terminated, some .terminated, none],
        [some 3, some 0, some 1, some 2]) := by decide +kernel
  obtain ⟨m, hr, hm⟩ := Option.map_eq_some_iff.mp hrun
  obtain ⟨hlivenesses, hgenerations⟩ := Prod.mk.inj hm
  obtain ⟨hnumbered, hswitched⟩ := hall m hr
  exact ⟨m, hr, by decide +kernel, hlivenesses, hgenerations, hnumbered, hswitched (by decide)⟩

end Census

end Handoff
