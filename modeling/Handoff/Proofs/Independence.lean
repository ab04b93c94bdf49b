import Handoff.Proofs.Lockstep
import Handoff.Proofs.Muster

/-! Bridges side by side: each goes the way it would go if there were no other. -/
namespace Handoff

/-- The bridges are created and awaited one after the other: the sides of each come to rest before
the next one is created. -/
inductive Usage.InTurn {σ : Type} [Feed σ] : UInt32 → List (Usage σ) → List Account → Prop where
  | nil (taken) : InTurn taken [] []
  | cons {taken u rest labels b as} (hl : ∀ x ∈ labels, x.isOfSides)
      (hr : (u.begin taken).bridge.run? u.handler labels = some b)
      (hrest : b.advance? u.handler = none) (halive : b.abort? = none)
      (has : InTurn (u.begin taken).taken rest as) :
      InTurn taken (u :: rest) (u.conclude (u.begin taken) b :: as)

namespace Usage.InTurn

variable {σ : Type} [Feed σ] {taken : UInt32} {us : List (Usage σ)} {as : List Account}

theorem getElem? (ht : InTurn taken us as) {i : Nat} {a : Account} (hi : as[i]? = some a) :
    ∃ u labels b, us[i]? = some u ∧ (∀ x ∈ labels, x.isOfSides) ∧
      (u.begin (Fleet.takenBy taken (us.take i))).bridge.run? u.handler labels = some b ∧
      b.advance? u.handler = none ∧
      u.conclude (u.begin (Fleet.takenBy taken (us.take i))) b = a := by
  induction ht generalizing i with
  | nil => cases hi
  | cons hl hr hrest halive has ih =>
    cases i with
    | zero =>
      cases hi
      exact ⟨_, _, _, rfl, hl, hr, hrest, rfl⟩
    | succ i => exact ih hi

end Usage.InTurn

namespace Muster

variable {σ : Type} [Feed σ] {m m' : Muster σ} {x : Label} {labels : List Label}

theorem exists_run_of_inTurn {taken : UInt32} {us : List (Usage σ)} {as : List Account}
    (ht : Usage.InTurn taken us as) {f : Fleet σ} (hm : IsTended ⟨taken, us, f⟩) :
    ∃ (labels : List Label) (more : Fleet σ), (∀ x ∈ labels, x.isOfSides) ∧
      run? ⟨taken, us, f⟩ labels = some ⟨Fleet.takenBy taken us, [], f ++ more⟩ ∧
      (∀ s ∈ more, s.2.bridge.advance? s.1.handler = none) ∧
      more.map (fun (u, c) => u.conclude c c.bridge) = as := by
  induction ht generalizing f with
  | nil taken => exact ⟨[], [], by simp, by simp [run?, Fleet.takenBy], by simp, rfl⟩
  | @cons taken u rest xs b as hl hr hrest halive has ih =>
    have hcreate := hm.step?_iff.mpr (.create rfl)
    have hm₁ := hm.step (x := .create) rfl hcreate
    have hi : (f ++ [(u, u.begin taken)])[f.length]? = some (u, u.begin taken) := by simp
    have hmoves := hm₁.run?_move hi hl hr
    have hset : (f ++ [(u, u.begin taken)]).set f.length (u, { u.begin taken with bridge := b }) =
        f ++ [(u, { u.begin taken with bridge := b })] := by simp
    rw [hset] at hmoves
    have hm₂ := hm₁.run (by simpa [Label.isOfSides] using hl) hmoves
    obtain ⟨labels, more, hlabels, hrun, hmore, hconclude⟩ := ih hm₂
    refine ⟨.create :: xs.map (.move f.length) ++ labels,
      (u, { u.begin taken with bridge := b }) :: more, ?_, ?_, ?_, ?_⟩
    · simp only [List.cons_append, List.mem_cons, List.mem_append, List.mem_map]
      rintro x (rfl | ⟨y, hy, rfl⟩ | hx)
      · rfl
      · exact hl y hy
      · exact hlabels x hx
    · rw [List.cons_append, run?, hcreate, Option.bind_some, run?_append, hmoves, Option.bind_some,
        hrun, List.append_assoc]
      rfl
    · simpa [hrest] using hmore
    · rw [List.map_cons, hconclude]
      rfl

end Muster

namespace Fleet

variable {σ : Type} [Feed σ]

/-- Where every bridge has gone its own way to the end, they may have gone one after the other. -/
theorem inTurn_of_solo {taken : UInt32} {us : List (Usage σ)} {f : Fleet σ}
    (hlen : f.length = us.length)
    (hsolo : ∀ i : Nat, ∃ labels : List Bridge.Label, (∀ x ∈ labels, x.isOfSides) ∧
      f[i]? = (begin taken us)[i]?.bind (solo? labels))
    (hrest : ∀ s ∈ f, s.2.bridge.advance? s.1.handler = none)
    (halive : ∀ s ∈ f, s.2.bridge.abort? = none) :
    Usage.InTurn taken us (f.map fun (u, c) => u.conclude c c.bridge) := by
  induction us generalizing taken f with
  | nil =>
    cases List.length_eq_zero_iff.mp hlen
    exact .nil taken
  | cons u rest ih =>
    cases f with
    | nil => cases hlen
    | cons s f =>
      obtain ⟨labels, hl, hs⟩ := hsolo 0
      obtain ⟨b, hr, rfl⟩ := Option.map_eq_some_iff.mp hs.symm
      have hf := ih (Nat.succ.inj hlen) (fun i => hsolo (i + 1))
        (fun s hs => hrest s (List.mem_cons_of_mem _ hs))
        (fun s hs => halive s (List.mem_cons_of_mem _ hs))
      exact .cons hl hr (hrest _ List.mem_cons_self) (halive _ List.mem_cons_self) hf

end Fleet

namespace Bridge

variable {σ : Type} [Feed σ] {h : Handler}

theorem exists_run_settle (b : Bridge σ) (fuel : Nat) :
    ∃ labels : List Label, (∀ x ∈ labels, x.isOfSides) ∧
      b.run? h labels = some (b.settle h fuel) := by
  induction fuel generalizing b with
  | zero => exact ⟨[], by simp, rfl⟩
  | succ fuel ih =>
    cases hs : b.advance? h with
    | none => exact ⟨[], by simp, by simp [run?, settle, hs]⟩
    | some next =>
      obtain ⟨labels, hl, hr⟩ := ih next
      obtain ⟨x, hx, hstep⟩ : ∃ x : Label, x.isOfSides ∧ b.step? h x = some next := by
        unfold advance? at hs
        cases hc : b.step? h .consume with
        | some m =>
          rw [hc, Option.orElse_some] at hs
          exact ⟨.consume, rfl, hc.trans hs⟩
        | none =>
          rw [hc, Option.orElse_none] at hs
          exact ⟨.produce, rfl, hs⟩
      refine ⟨x :: labels, ?_, ?_⟩
      · simpa [hx] using hl
      · simp only [run?, settle, hs, hstep, Option.bind_some, hr]

theorem trace_grows_of_callerActs (b : Bridge σ) (acts : List CallerAct) :
    b.link.trace <+: (b.callerActs h acts).link.trace := by
  induction acts generalizing b with
  | nil => exact List.prefix_rfl
  | cons a rest ih =>
    have hact : b.link.trace <+: (b.callerAct h a).link.trace := by
      rcases b.callerAct_cases (h := h) a with ⟨labels, -, hr⟩ | heq | heq
      · exact trace_grows_of_run hr
      · simp [heq, note]
      · simp [heq, note]
    exact hact.trans (ih _)

end Bridge

namespace Usage

variable {σ : Type} [Feed σ]

theorem waitOver_keep (u : Usage σ) (c : Creation σ) (b : Bridge σ) :
    (u.waitOver c b).producer = b.producer ∧ b.link.trace <+: (u.waitOver c b).link.trace := by
  unfold waitOver
  split
  · exact ⟨rfl, List.prefix_rfl⟩
  · cases u.await with
    | bridge | letGo | late => exact ⟨rfl, by simp [Bridge.note]⟩
    | parts =>
      have htrace := b.trace_grows_of_callerActs (h := u.handler) [.stop]
      exact ⟨(b.callerAct_frame .stop).1,
        htrace.trans (by simp [Bridge.note, Bridge.callerActs, Bridge.callerAct])⟩

theorem trace_grows_of_conclude (u : Usage σ) (c : Creation σ) (b : Bridge σ) :
    b.link.trace <+: (u.conclude c b).trace := by
  unfold conclude
  split
  · exact List.prefix_rfl
  · exact (u.waitOver_keep c b).2.trans (Bridge.trace_grows_of_callerActs _ u.after)

theorem abort?_conclude (u : Usage σ) (c : Creation σ) {b : Bridge σ} (hb : b.abort? = none) :
    (u.conclude c b).abort? = none := by
  have hafter : ((u.waitOver c b).callerActs u.handler u.after).abort? = none := by
    rw [Bridge.abort?, (Bridge.callerActs_frame _ u.after).1, (u.waitOver_keep c b).1]
    exact hb
  simp [conclude, account, hb, hafter]

def Settle (taken : UInt32) (us : List (Usage σ)) : Prop :=
  ∀ (i : Nat) u, us[i]? = some u →
    ((u.begin (Fleet.takenBy taken (us.take i))).bridge.settle u.handler stepLimit).advance?
      u.handler = none

theorem inTurn_runInTurn {taken : UInt32} {us : List (Usage σ)}
    (hh : ∀ u ∈ us, u.handler.IsCalm) (hs : Settle taken us) :
    InTurn taken us (runInTurn taken us) := by
  induction us generalizing taken with
  | nil => exact .nil taken
  | cons u rest ih =>
    obtain ⟨labels, hl, hr⟩ :=
      (u.begin taken).bridge.exists_run_settle (h := u.handler) stepLimit
    have htended := (u.tended_begin taken).run (hh u List.mem_cons_self) hl hr
    have hsettle : Settle (u.begin taken).taken rest := fun i => hs (i + 1)
    have hrest := ih (fun v hv => hh v (List.mem_cons_of_mem u hv)) hsettle
    have halive := u.abort?_conclude (u.begin taken) htended.alive
    simp only [runInTurn, halive, Option.isSome_none, Bool.false_eq_true, if_false]
    exact .cons hl hr (hs 0 u rfl) htended.alive hrest

end Usage

namespace Muster

variable {σ : Type} [Feed σ]

/-- The bridges of a list are created in its order, and all their sides take steps in any order. -/
structure Interleaves (taken : UInt32) (us : List (Usage σ)) (labels : List Label) (m : Muster σ) :
    Prop where
  sides : ∀ x ∈ labels, x.isOfSides
  run : run? { taken, waiting := us } labels = some m

/-- What bridges that run side by side have in common with bridges that are created and awaited one
after the other. -/
structure Independent (taken : UInt32) (us : List (Usage σ)) : Prop where
  /-- Each bridge is where its own steps lead it, with the generation that its place in the list
  gives it. -/
  alone : ∀ labels m, Interleaves taken us labels m → ∀ (i : Nat) u c, m.fleet[i]? = some (u, c) →
    us[i]? = some u ∧ Fleet.solo? (labels.filterMap (Label.of? i))
      (u, u.begin (Fleet.takenBy taken (us.take i))) = some (u, c)
  /-- Two interleavings can go on to the same state, after equally many steps. -/
  join : ∀ labels m labels' m', Interleaves taken us labels m → Interleaves taken us labels' m' →
    ∃ more more' e, Interleaves taken us (labels ++ more) e ∧
      Interleaves taken us (labels' ++ more') e ∧
      labels.length + more.length = labels'.length + more'.length
  /-- What a bridge has done is a beginning of what it does in its turn, and all of it once it has
  come to rest, even if others after it never do. -/
  each : ∀ labels m, Interleaves taken us labels m → ∀ k as, Usage.InTurn taken (us.take k) as →
    ∀ (i : Nat) u c a, m.fleet[i]? = some (u, c) → as[i]? = some a →
      c.bridge.link.trace <+: a.trace ∧
        (c.bridge.advance? u.handler = none → u.conclude c c.bridge = a)
  /-- Where all have come to rest their accounts are those of bridges that were run in turn. -/
  inTurn : ∀ labels m, Interleaves taken us labels m → m.IsOver →
    Usage.InTurn taken us m.fleet.conclude ∧
      (Usage.Settle taken us → m.fleet.conclude = Usage.runInTurn taken us)
  /-- If they come to rest in turn they do so in every order, and all orders end alike. -/
  complete : ∀ as, Usage.InTurn taken us as → ∃ total e, e.IsOver ∧ e.fleet.conclude = as ∧
    ∀ labels m, Interleaves taken us labels m →
      (∃ more, Interleaves taken us (labels ++ more) e ∧
        labels.length + more.length = total) ∧ (m.IsOver → m = e)

section Interleaves

variable {taken : UInt32} {us : List (Usage σ)} {labels more : List Label} {m e : Muster σ}

theorem Interleaves.append (hm : Interleaves taken us labels m) (hl : ∀ x ∈ more, x.isOfSides)
    (hr : m.run? more = some e) : Interleaves taken us (labels ++ more) e where
  sides x hx := (List.mem_append.mp hx).elim (hm.sides x) (hl x)
  run := by rw [run?_append, hm.run, Option.bind_some, hr]

theorem Interleaves.alone (hm : Interleaves taken us labels m) {i : Nat} {u : Usage σ}
    {c : Creation σ} (hi : m.fleet[i]? = some (u, c)) :
    us[i]? = some u ∧ Fleet.solo? (labels.filterMap (Label.of? i))
      (u, u.begin (Fleet.takenBy taken (us.take i))) = some (u, c) := by
  have hprospect := prospect_of_run hm.run i
  rw [getElem?_prospect hi, prospect, List.nil_append, Fleet.getElem?_begin] at hprospect
  obtain ⟨s, hs, hsolo⟩ := Option.bind_eq_some_iff.mp hprospect.symm
  obtain ⟨v, hv, rfl⟩ := Option.map_eq_some_iff.mp hs
  obtain ⟨b, hr, heq⟩ := Option.map_eq_some_iff.mp hsolo
  cases heq
  exact ⟨hv, hsolo⟩

theorem Interleaves.join_of_isOver (hh : ∀ u ∈ us, u.handler.IsCalm)
    (hm : Interleaves taken us labels m) {labels' : List Label}
    (he : Interleaves taken us labels' e) (hover : e.IsOver) :
    ∃ more : List Label, (∀ x ∈ more, x.isOfSides) ∧ m.run? more = some e ∧
      labels.length + more.length = labels'.length := by
  have hrun := hm.run
  have hrun' := he.run
  rw [run?_eq_foldlM] at hrun hrun'
  simp only [run?_eq_foldlM]
  exact commuting_muster.join_of_rest (tended_begin taken hh) hm.sides hrun he.sides hrun'
    hover.step?_eq_none

theorem Interleaves.inTurn (hh : ∀ u ∈ us, u.handler.IsCalm)
    (hm : Interleaves taken us labels m) (hover : m.IsOver) :
    Usage.InTurn taken us m.fleet.conclude := by
  have htended := (tended_begin taken hh).run hm.sides hm.run
  have hrest := (Fleet.isAtRest_iff htended.alive).mp hover.2
  have hprospect : m.prospect = m.fleet := by simp [prospect, hover.1, Fleet.begin]
  have hlen : m.fleet.length = us.length := by
    rw [← hprospect, length_prospect_of_run hm.run]
    simp [prospect, Fleet.length_begin]
  have hsolo (i : Nat) : ∃ labels : List Bridge.Label, (∀ x ∈ labels, x.isOfSides) ∧
      m.fleet[i]? = (Fleet.begin taken us)[i]?.bind (Fleet.solo? labels) := by
    refine ⟨labels.filterMap (Label.of? i), Label.isOfSides_filterMap hm.sides i, ?_⟩
    rw [← hprospect, prospect_of_run hm.run i]
    rfl
  have halive : ∀ s ∈ m.fleet, s.2.bridge.abort? = none := by
    intro s hs
    obtain ⟨-, g, hb⟩ := htended s (List.mem_append_left _ hs)
    exact hb.alive
  rw [Fleet.conclude, htended.alive]
  exact Fleet.inTurn_of_solo hlen hsolo hrest halive

theorem exists_interleaves_of_inTurn (hh : ∀ u ∈ us, u.handler.IsCalm) {as : List Account}
    (ht : Usage.InTurn taken us as) :
    ∃ labels e, Interleaves taken us labels e ∧ e.IsOver ∧ e.fleet.conclude = as := by
  obtain ⟨labels, more, hl, hr, hrest, has⟩ := exists_run_of_inTurn ht (tended_begin taken hh)
  have htended := (tended_begin taken hh).run hl hr
  refine ⟨labels, _, ⟨hl, hr⟩, ⟨rfl, (Fleet.isAtRest_iff htended.alive).mpr hrest⟩, ?_⟩
  rw [Fleet.conclude, htended.alive]
  exact has

theorem Interleaves.each (hh : ∀ u ∈ us, u.handler.IsCalm) (hm : Interleaves taken us labels m)
    {k : Nat} {as : List Account} (ht : Usage.InTurn taken (us.take k) as) {i : Nat} {u : Usage σ}
    {c : Creation σ} {a : Account} (hi : m.fleet[i]? = some (u, c)) (ha : as[i]? = some a) :
    c.bridge.link.trace <+: a.trace ∧
      (c.bridge.advance? u.handler = none → u.conclude c c.bridge = a) := by
  obtain ⟨hu, hsolo⟩ := hm.alone hi
  obtain ⟨b, hb, heq⟩ := Option.map_eq_some_iff.mp hsolo
  obtain ⟨v, xs, e, hv, hxs, he, hrest, rfl⟩ := ht.getElem? ha
  have hlt : i < k := by
    have hlt := (List.getElem?_eq_some_iff.mp hv).1
    rw [List.length_take] at hlt
    omega
  rw [List.getElem?_take_of_lt hlt, hu] at hv
  cases hv
  rw [List.take_take, Nat.min_eq_left (Nat.le_of_lt hlt)] at he ⊢
  cases heq
  have hcalm := hh u (List.mem_of_getElem? hu)
  have htended := u.tended_begin (Fleet.takenBy taken (us.take i))
  have hys := Label.isOfSides_filterMap hm.sides i
  constructor
  · obtain ⟨more, -, hmore, -⟩ := htended.run_to_rest hcalm hys hb hxs he hrest
    exact (Bridge.trace_grows_of_run hmore).trans (u.trace_grows_of_conclude _ e)
  · intro hrest'
    cases htended.eq_of_rest hcalm hys hb hrest' hxs he hrest
    rfl

end Interleaves

/-- No handler panics. Then it makes no difference for a bridge which others there are and in which
order all take their steps; creations may fail anywhere in the list. -/
theorem independent_of_calm (taken : UInt32) (us : List (Usage σ))
    (hh : ∀ u ∈ us, u.handler.IsCalm) : Independent taken us where
  alone labels m hm i u c hi := hm.alone hi
  join labels m labels' m' hm hm' := by
    have hrun := hm.run
    have hrun' := hm'.run
    rw [run?_eq_foldlM] at hrun hrun'
    obtain ⟨more, more', e, hmore, hmore', he, he', hlen⟩ :=
      commuting_muster.join (tended_begin taken hh) hm.sides hrun hm'.sides hrun'
    rw [← run?_eq_foldlM] at he he'
    exact ⟨more, more', e, hm.append hmore he, hm'.append hmore' he', hlen⟩
  each labels m hm k as ht i u c a hi ha := hm.each hh ht hi ha
  inTurn labels m hm hover := by
    have hturn := hm.inTurn hh hover
    refine ⟨hturn, fun hs => ?_⟩
    obtain ⟨labels', e, he, hover', hconclude⟩ :=
      exists_interleaves_of_inTurn hh (Usage.inTurn_runInTurn hh hs)
    obtain ⟨more, hmore, hr, -⟩ := hm.join_of_isOver hh he hover'
    rw [hover.eq_of_run hmore hr, hconclude]
  complete as ht := by
    obtain ⟨labels', e, he, hover, hconclude⟩ := exists_interleaves_of_inTurn hh ht
    refine ⟨labels'.length, e, hover, hconclude, fun labels m hm => ?_⟩
    obtain ⟨more, hmore, hr, hlen⟩ := hm.join_of_isOver hh he hover
    exact ⟨⟨more, hm.append hmore hr, hlen⟩, fun hover' => hover'.eq_of_run hmore hr⟩

end Muster

def Usage.oneLost : Usage Script where
  source := { feed := { steps := [.yield 3, .fail ⟨"lost", []⟩] } }
  style := .script

def Usage.oneLostLabels : List Bridge.Label :=
  .consume :: (List.replicate 4 .produce ++ List.replicate 3 .consume ++
    List.replicate 6 .produce ++ List.replicate 7 .consume)

namespace Muster

/-- The second source refuses to start, and the third one gets no thread. -/
def fourBridges : List (Usage Script) :=
  [Usage.twoRecords,
    { source := { feed := {}, fault? := some (.refused ⟨"no source", []⟩) }, style := .script },
    { source := { feed := { steps := [.yield 1] } }, style := .script,
      config := { namePrefix := "a\x00b" } },
    Usage.oneLost]

/-- The others are created while the first one is half way, and the last one overtakes it. -/
def fourBridgesLabels : List Label :=
  .create :: (Usage.twoRecordsLabels.take 14).map (.move 0) ++ [.create, .create, .create] ++
    Usage.oneLostLabels.map (.move 3) ++ (List.replicate 3 .consume).map (.move 1) ++
    (Usage.twoRecordsLabels.drop 14).map (.move 0) ++
    (List.replicate 6 .consume).map (.move 2) ++ (List.replicate 3 .consume).map (.move 1)

theorem independent_fourBridges :
    (∃ m, Interleaves 0 fourBridges fourBridgesLabels m ∧ m.IsOver ∧
      m.fleet.conclude = Usage.runInTurn 0 fourBridges ∧
      m.fleet.conclude.map (·.completion?) =
        [some (.finished ⟨2, 1⟩), none, none, some (.failed (.sourceFailed 1 ⟨"lost", []⟩))]) ∧
      Independent 0 fourBridges := by
  have hcalm : ∀ u ∈ fourBridges, u.handler.IsCalm := by
    simp only [fourBridges, List.mem_cons, List.not_mem_nil, or_false]
    rintro u (rfl | rfl | rfl | rfl)
    · exact Usage.isCalm_twoRecords
    all_goals exact fun n r x hx => by cases hx
  have hrun : ((run? ⟨0, fourBridges, []⟩ fourBridgesLabels).map fun m => decide (m.IsOver ∧
      m.fleet.conclude = Usage.runInTurn 0 fourBridges ∧ m.fleet.conclude.map (·.completion?) =
        [some (.finished ⟨2, 1⟩), none, none, some (.failed (.sourceFailed 1 ⟨"lost", []⟩))])) =
      some true := by decide +kernel
  obtain ⟨m, hr, hm⟩ := Option.map_eq_some_iff.mp hrun
  exact ⟨⟨m, ⟨by decide, hr⟩, of_decide_eq_true hm⟩, independent_of_calm 0 fourBridges hcalm⟩

end Muster

end Handoff
