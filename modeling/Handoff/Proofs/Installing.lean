import Handoff.Log.Install

/-! A process installs its global subscriber once: at the first call that is not off and whose path
is accepted. What else is called before, between or after changes nothing about that. -/
namespace Handoff.Log

namespace Config

variable {c : Config} {cwd : Place} {t : FileTree}

def isAccepted (c : Config) : Bool :=
  c.writer.path?.all fun path => (Appender.locate path).isOk

/-- The file of an accepted path can be opened. -/
def IsCreatable (c : Config) (cwd : Place) (t : FileTree) : Prop :=
  ∀ path, c.writer.path? = some path → (Appender.locate path).isOk →
    ∃ place, (Appender.create cwd path t).1 = .done place

instance (c : Config) (cwd : Place) (t : FileTree) : Decidable (c.IsCreatable cwd t) :=
  match hp : c.writer.path? with
  | none => isTrue fun path h => by
    rw [hp] at h
    cases h
  | some path =>
    match hc : (Appender.create cwd path t).1 with
    | .done place => isTrue fun path' h _ => by
      cases hp.symm.trans h
      exact ⟨place, hc⟩
    | .failed _ | .panicked =>
      if hl : (Appender.locate path).isOk then
        isFalse fun h => by
          obtain ⟨place, hdone⟩ := h path hp hl
          rw [hc] at hdone
          cases hdone
      else isTrue fun path' h hl' => by
        cases hp.symm.trans h
        exact (hl hl').elim

theorem createAll_of_isAccepted (ha : c.isAccepted) (hc : c.IsCreatable cwd t) :
    ∃ layers t', Layer.createAll cwd c t = (.done layers, t') := by
  cases hp : c.writer.path? with
  | none =>
    simp only [Layer.createAll, Layer.createFile, hp, Attempt.map]
    exact ⟨_, t, rfl⟩
  | some path =>
    have hl : (Appender.locate path).isOk := by simpa [isAccepted, hp] using ha
    obtain ⟨place, hplace⟩ := hc path hp hl
    rcases hcreate : Appender.create cwd path t with ⟨a, t'⟩
    rw [hcreate] at hplace
    subst hplace
    simp only [Layer.createAll, Layer.createFile, hp, hcreate, Attempt.map]
    exact ⟨_, t', rfl⟩

theorem createAll_of_not_isAccepted (ha : c.isAccepted = false) (cwd : Place) (t : FileTree) :
    ∃ e, Layer.createAll cwd c t = (.failed e, t) := by
  cases hp : c.writer.path? with
  | none => simp [isAccepted, hp] at ha
  | some path =>
    cases hl : Appender.locate path with
    | ok found => simp [isAccepted, hp, hl, Except.isOk, Except.toBool] at ha
    | error e =>
      refine ⟨e, ?_⟩
      simp only [Layer.createAll, Layer.createFile, hp, Appender.create, hl]
      rfl

end Config

namespace Registry

variable {cwd : Place} {r : Registry} {xs : List Deed} {c : Config} {s : Scope}

def Deed.isGlobal : Deed → Bool
  | .install .process _ => true
  | .install .threadLocal _ | .restoreLocal _ | .emit _ | .retree _ => false

/-- A call for the whole process that is not off and whose path is accepted. -/
def Deed.isClaim : Deed → Bool
  | .install .process c => c.level != .off && c.isAccepted
  | .install .threadLocal _ | .restoreLocal _ | .emit _ | .retree _ => false

/-- At each call that is not off, the file of an accepted path can be opened. -/
def Creatable (cwd : Place) (r : Registry) (xs : List Deed) : Prop :=
  ∀ before s c rest, xs = before ++ .install s c :: rest → c.level ≠ .off →
    c.IsCreatable cwd (r.after cwd before).tree

theorem creatable_cons {x : Deed}
    (hx : ∀ s c, x = .install s c → c.level ≠ .off → c.IsCreatable cwd r.tree)
    (hxs : (r.step cwd x).Creatable cwd xs) : r.Creatable cwd (x :: xs) := by
  intro before s c rest heq
  cases before with
  | nil =>
    cases heq
    exact hx s c rfl
  | cons y before =>
    cases heq
    exact hxs before s c rest rfl

theorem creatable_tail {x : Deed} (hx : r.Creatable cwd (x :: xs)) :
    (r.step cwd x).Creatable cwd xs := by
  intro before s c rest heq
  exact hx (x :: before) s c rest (by rw [heq]; rfl)

theorem creatable_append_left {ys : List Deed} (hx : r.Creatable cwd (xs ++ ys)) :
    r.Creatable cwd xs := by
  intro before s c rest heq
  exact hx before s c (rest ++ ys) (by rw [heq]; simp)

/-- How a call for the whole process is answered, which may find that a subscriber is installed. -/
structure AnswersGlobal (r : Registry) (cwd : Place) (isTaken : Bool) (c : Config) : Prop where
  off : c.level = .off → r.installGlobal cwd c = (.nothing, r)
  rejected : c.level ≠ .off → c.isAccepted = false → r.installGlobal cwd c = (.failed, r)
  first : c.level ≠ .off → c.isAccepted → isTaken = false →
    ∃ layers t, Layer.createAll cwd c r.tree = (.done layers, t) ∧ r.everywhere = none ∧
      r.installGlobal cwd c = (.installed, { r with tree := t, everywhere := some layers })
  /-- The file may have been made, but the subscriber stays the one that is installed. -/
  later : c.level ≠ .off → c.isAccepted → isTaken → r.everywhere.isSome ∧
    ∃ t, r.installGlobal cwd c = (.failed, { r with tree := t })

/-- How a call for one thread is answered, which does not ask what is installed for all of them. -/
structure AnswersLocal (r : Registry) (cwd : Place) (c : Config) : Prop where
  off : c.level = .off → r.installLocal cwd c = (.nothing, r)
  rejected : c.level ≠ .off → c.isAccepted = false → r.installLocal cwd c = (.failed, r)
  accepted : c.level ≠ .off → c.isAccepted →
    ∃ layers t, Layer.createAll cwd c r.tree = (.done layers, t) ∧
      r.installLocal cwd c = (.installed, { r with tree := t, here := some layers })

theorem install_rejected (hl : c.level ≠ .off) (ha : c.isAccepted = false) (s : Scope)
    (r : Registry) (cwd : Place) : r.install s cwd c = (.failed, r) := by
  obtain ⟨e, he⟩ := Config.createAll_of_not_isAccepted ha cwd r.tree
  rw [install_of_not_off hl, set_of_failed he]

theorem answersGlobal (hc : c.level ≠ .off → c.IsCreatable cwd r.tree) :
    r.AnswersGlobal cwd r.everywhere.isSome c := by
  refine ⟨fun hl => ?_, fun hl ha => ?_, fun hl ha hr => ?_, fun hl ha hr => ⟨hr, ?_⟩⟩ <;>
    rw [← install_process]
  · exact install_of_off hl _ _ _
  · exact install_rejected hl ha _ _ _
  · obtain ⟨layers, t, hlayers⟩ := Config.createAll_of_isAccepted ha (hc hl)
    have hnone : r.everywhere = none := by simpa using hr
    exact ⟨layers, t, hlayers, hnone,
      (install_of_not_off hl _ _ _).trans (set_process_of_none hlayers hnone)⟩
  · obtain ⟨layers, t, hlayers⟩ := Config.createAll_of_isAccepted ha (hc hl)
    obtain ⟨first, hfirst⟩ := Option.isSome_iff_exists.mp hr
    exact ⟨t, (install_of_not_off hl _ _ _).trans (set_process_of_some hlayers hfirst)⟩

theorem answersLocal (hc : c.level ≠ .off → c.IsCreatable cwd r.tree) :
    r.AnswersLocal cwd c := by
  refine ⟨fun hl => ?_, fun hl ha => ?_, fun hl ha => ?_⟩ <;> rw [← install_threadLocal]
  · exact install_of_off hl _ _ _
  · exact install_rejected hl ha _ _ _
  · obtain ⟨layers, t, hlayers⟩ := Config.createAll_of_isAccepted ha (hc hl)
    exact ⟨layers, t, hlayers, (install_of_not_off hl _ _ _).trans (set_threadLocal hlayers)⟩

/-- Whether a subscriber is installed for the whole process changes with a claim alone. -/
theorem isSome_everywhere_step {x : Deed} (hx : r.Creatable cwd [x]) :
    (r.step cwd x).everywhere.isSome = (r.everywhere.isSome || x.isClaim) := by
  cases x with
  | install s c =>
    have hc : c.level ≠ .off → c.IsCreatable cwd r.tree := hx [] s c [] rfl
    by_cases hl : c.level = .off
    · cases s <;> simp [step, install_of_off hl, Deed.isClaim, hl]
    · cases ha : c.isAccepted with
      | false => cases s <;> simp [step, install_rejected hl ha, Deed.isClaim, ha]
      | true =>
        cases s with
        | threadLocal =>
          obtain ⟨layers, t, -, hinstall⟩ := (answersLocal hc).accepted hl ha
          simp [step, install_threadLocal, hinstall, Deed.isClaim]
        | process =>
          have hanswers := answersGlobal hc
          cases hr : r.everywhere.isSome with
          | false =>
            obtain ⟨layers, t, -, -, hinstall⟩ := hanswers.first hl ha hr
            simp [step, install_process, hinstall, Deed.isClaim, hl, ha]
          | true =>
            obtain ⟨-, t, hinstall⟩ := hanswers.later hl ha hr
            simp [step, install_process, hinstall, hr]
  | restoreLocal before | emit l | retree t => simp [step, emit, Deed.isClaim]

theorem isSome_everywhere_after (hx : r.Creatable cwd xs) :
    (r.after cwd xs).everywhere.isSome = (r.everywhere.isSome || xs.any (·.isClaim)) := by
  induction xs generalizing r with
  | nil => simp [after]
  | cons x rest ih =>
    have hone : r.Creatable cwd [x] := creatable_append_left hx
    rw [after, List.foldl_cons]
    exact (ih (creatable_tail hx)).trans (by
      rw [isSome_everywhere_step hone, List.any_cons, Bool.or_assoc])

theorem AnswersGlobal.fst {isTaken : Bool} (hi : r.AnswersGlobal cwd isTaken c) :
    (r.installGlobal cwd c).1 =
      if c.level = .off then .nothing
      else if c.isAccepted && !isTaken then .installed else .failed := by
  by_cases hl : c.level = .off
  · rw [hi.off hl, if_pos hl]
  · rw [if_neg hl]
    cases ha : c.isAccepted with
    | false => rw [hi.rejected hl ha, Bool.false_and, if_neg Bool.false_ne_true]
    | true =>
      cases isTaken with
      | false =>
        obtain ⟨layers, t, -, -, hinstall⟩ := hi.first hl ha rfl
        rw [hinstall]
        rfl
      | true =>
        obtain ⟨-, t, hinstall⟩ := hi.later hl ha rfl
        rw [hinstall]
        rfl

theorem any_isClaim_filter (xs : List Deed) :
    (xs.filter (·.isGlobal)).any (·.isClaim) = xs.any (·.isClaim) := by
  rw [List.any_filter]
  congr 1
  funext x
  cases x with
  | install s c => cases s <;> rfl
  | restoreLocal before | emit l | retree t => rfl

/-- **The global subscriber is installed once, and what is off does nothing.** In a process without
one, whose log files can all be created, the calls for all threads install theirs just once: at the
first that is not off and whose path is accepted. Calls for one thread are answered without a look
at it and change nothing about it. -/
theorem installsOnce_of_creatable (cwd : Place) (r : Registry) (hr : r.everywhere = none) :
    (∀ xs, r.Creatable cwd xs → ∀ before s c rest, xs = before ++ .install s c :: rest →
      (s = .process → (r.after cwd before).AnswersGlobal cwd (before.any (·.isClaim)) c) ∧
      (s = .threadLocal → (r.after cwd before).AnswersLocal cwd c)) ∧
    ∀ xs ys c, r.Creatable cwd (xs ++ [.install .process c]) →
      r.Creatable cwd (ys ++ [.install .process c]) →
      xs.filter (·.isGlobal) = ys.filter (·.isGlobal) →
      ((r.after cwd xs).installGlobal cwd c).1 = ((r.after cwd ys).installGlobal cwd c).1 := by
  have hanswers {before rest : List Deed} {c : Config}
      (hx : r.Creatable cwd (before ++ .install .process c :: rest)) :
      (r.after cwd before).AnswersGlobal cwd (before.any (·.isClaim)) c := by
    have htaken := isSome_everywhere_after (creatable_append_left hx)
    rw [hr, Option.isSome_none, Bool.false_or] at htaken
    rw [← htaken]
    exact answersGlobal (hx before .process c rest rfl)
  refine ⟨fun xs hx before s c rest heq => ?_, fun xs ys c hx hy heq => ?_⟩
  · subst heq
    refine ⟨?_, ?_⟩ <;> rintro rfl
    · exact hanswers hx
    · exact answersLocal (hx before .threadLocal c rest rfl)
  · rw [(hanswers hx).fst, (hanswers hy).fst, ← any_isClaim_filter xs, heq, any_isClaim_filter]

/-- Calls of all kinds: off, rejected, for one thread, and two that could be installed. -/
def sixCalls : List Deed :=
  [.install .process (.ofLevel .off), .install .process ⟨.debug, .file ".."⟩,
    .install .threadLocal ⟨.info, .file "a.log"⟩, .install .process ⟨.warn, .both .stderr "a.log"⟩,
    .install .process (.ofLevel .info + .ofDisplay .stdout), .install .threadLocal ⟨.error, .none⟩]

theorem creatable_sixCalls :
    Creatable Preparation.workFolder { tree := Preparation.tree [] } sixCalls := by
  have hnil (r : Registry) : r.Creatable Preparation.workFolder [] := by
    intro before s c rest heq
    cases before <;> cases heq
  refine creatable_cons ?_ (creatable_cons ?_ (creatable_cons ?_ (creatable_cons ?_
    (creatable_cons ?_ (creatable_cons ?_ (hnil _)))))) <;>
  · rintro _ _ ⟨⟩ -
    decide +kernel

theorem installsOnce_sixCalls :
    (({ tree := Preparation.tree [] } : Registry).Creatable Preparation.workFolder sixCalls) ∧
    (sixCalls.take 3).any (·.isClaim) = false ∧
    (({ tree := Preparation.tree [] } : Registry).after Preparation.workFolder
      (sixCalls.take 3)).AnswersGlobal Preparation.workFolder false
        ⟨.warn, .both .stderr "a.log"⟩ ∧
    (({ tree := Preparation.tree [] } : Registry).after Preparation.workFolder
      (sixCalls.take 4)).AnswersGlobal Preparation.workFolder true
        (.ofLevel .info + .ofDisplay .stdout) ∧
    (({ tree := Preparation.tree [] } : Registry).after Preparation.workFolder
      (sixCalls.take 5)).AnswersLocal Preparation.workFolder ⟨.error, .none⟩ := by
  obtain ⟨hcalls, -⟩ := installsOnce_of_creatable Preparation.workFolder
    { tree := Preparation.tree [] } rfl
  have hall := hcalls sixCalls creatable_sixCalls
  have hfirst := (hall (sixCalls.take 3) .process _ _ rfl).1 rfl
  have hlater := (hall (sixCalls.take 4) .process _ _ rfl).1 rfl
  have hlocal := (hall (sixCalls.take 5) .threadLocal _ _ rfl).2 rfl
  have hfree : (sixCalls.take 3).any (·.isClaim) = false := by decide +kernel
  have htaken : (sixCalls.take 4).any (·.isClaim) = true := by decide +kernel
  rw [hfree] at hfirst
  rw [htaken] at hlater
  exact ⟨creatable_sixCalls, hfree, hfirst, hlater, hlocal⟩

end Registry

end Handoff.Log
