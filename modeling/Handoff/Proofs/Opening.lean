import Handoff.Log.Install
import Handoff.Proofs.Locating

/-! A log file that cannot be opened: a path without a file name is an error, and whatever else is
in the way is a panic. Either way the subscribers stay what they were. -/
namespace Handoff.Log

namespace Appender

variable {t : FileTree} {cwd : Place} {path : String}

def IsBlocked (cwd : Place) (path : String) (t : FileTree) : Prop :=
  ∀ place, (create cwd path t).1 ≠ .done place

inductive Obstacle (t : FileTree) (cwd : Place) (path : String) : Prop where
  | noFileName (hn : (Path.ofText path).fileName? = none)
  | isFolder (hf : t.isFolder cwd (Path.ofText path))
  | noParent {folder : Path} (hp : (Path.ofText path).parent? = some folder)
    (hf : (t.makeFolders cwd folder).1 = false)
  | nul (hn : '\x00' ∈ path.toList)

/-- How one learns of a file that cannot be opened. -/
def refusal {α : Type} (path : String) : Attempt α :=
  match locate path with
  | .error e => .failed e
  | .ok _ => .panicked

theorem locate_eq_ok {folder : Path} {name : String} (hl : locate path = .ok (folder, name)) :
    (Path.ofText path).parent? = some folder ∧ (Path.ofText path).fileName? = some name := by
  unfold locate at hl
  split at hl
  · cases hl
  next hf =>
    split at hl <;> cases hl
    next hn => exact ⟨hf, hn⟩

/-- A path is refused where it has no file name, whichever error this is. -/
theorem exists_locate_eq_error_iff :
    (∃ e, locate path = .error e) ↔ (Path.ofText path).fileName? = none := by
  unfold locate
  cases hn : (Path.ofText path).fileName? with
  | none => cases (Path.ofText path).parent? <;> simp
  | some name =>
    obtain ⟨folder, hf⟩ := Path.exists_parent? hn
    simp [hf]

theorem create_of_error {e : AppenderError} (hl : locate path = .error e) :
    create cwd path t = (.failed e, t) := by
  rw [create, hl]

theorem create_of_ok {folder : Path} {name : String} (hl : locate path = .ok (folder, name))
    (cwd : Place) (t : FileTree) :
    (create cwd path t).1 = match (t.openDeep cwd folder name).1 with
      | some place => .done place
      | none => .panicked := by
  simp only [create, hl]
  rcases t.openDeep cwd folder name with ⟨_ | place, t'⟩ <;> rfl

theorem create_of_isBlocked (hb : IsBlocked cwd path t) :
    (create cwd path t).1 = refusal path := by
  rw [refusal]
  cases hl : locate path with
  | error e => rw [create_of_error hl]
  | ok found =>
    have hcreate := create_of_ok hl cwd t
    cases hopen : (t.openDeep cwd found.1 found.2).1 with
    | none => rw [hcreate, hopen]
    | some place =>
      rw [hopen] at hcreate
      exact (hb place hcreate).elim

theorem isBlocked_of_ok {folder : Path} {name : String} (hl : locate path = .ok (folder, name))
    (hopen : (t.openDeep cwd folder name).1 = none) : IsBlocked cwd path t := by
  intro place heq
  rw [create_of_ok hl, hopen] at heq
  cases heq

theorem Obstacle.isBlocked (ho : Obstacle t cwd path) : IsBlocked cwd path t := by
  cases hl : locate path with
  | error e =>
    intro place heq
    rw [create_of_error hl] at heq
    cases heq
  | ok found =>
    obtain ⟨folder, name⟩ := found
    obtain ⟨hparent, hname⟩ := locate_eq_ok hl
    have hsplits := Path.splits hparent hname
    refine isBlocked_of_ok hl ?_
    cases ho with
    | noFileName hn =>
      rw [hname] at hn
      cases hn
    | isFolder hf =>
      obtain ⟨place, hr, hfolder⟩ := FileTree.isFolder_iff.mp hf
      have hr := FileTree.reach_join hsplits hr
      have hopen (t' : Place × FileTree) : t.openFile cwd (folder.join name) ≠ .ok t' := by
        intro ho
        obtain ⟨hr', hfile⟩ := FileTree.reach_of_openFile ho
        cases hr.symm.trans hr'
        exact hfile hfolder
      refine FileTree.openDeep_eq_none hopen fun _ => ?_
      rwa [FileTree.makeFolders_of_reach hsplits hr]
    | noParent hp hf =>
      cases hparent.symm.trans hp
      refine FileTree.openDeep_eq_none (fun t' ho => ?_) fun hmade => ?_
      · rw [FileTree.makeFolders_of_reach hsplits (FileTree.reach_of_openFile ho).1] at hf
        cases hf
      · rw [hf] at hmade
        cases hmade
    | nul hn =>
      have hnul : (folder.join name).hasNul = true := by
        rw [hsplits.hasNul, Path.hasNul, Path.text_ofText]
        exact decide_eq_true hn
      have hopen (t : FileTree) (t' : Place × FileTree) :
          t.openFile cwd (folder.join name) ≠ .ok t' := by
        intro ho
        have hr := (FileTree.reach_of_openFile ho).1
        rw [(FileTree.reach_eq_ok_iff.mp hr).2.1] at hnul
        cases hnul
      exact FileTree.openDeep_eq_none (hopen t) fun _ => hopen _

end Appender

namespace Layer

variable {t : FileTree} {cwd : Place} {c : Config}

theorem createFile_of_path {path : String} (hp : c.writer.path? = some path) :
    (createFile cwd c t).1 =
      (Appender.create cwd path t).1.map fun place => some (file c.level place) := by
  simp only [createFile, hp]

theorem createAll_fst (cwd : Place) (c : Config) (t : FileTree) :
    (createAll cwd c t).1 =
      (createFile cwd c t).1.map fun file? =>
        filter c.level :: ((display? c).toList ++ file?.toList) := rfl

end Layer

theorem Attempt.map_refusal {α β : Type} (f : α → β) (path : String) :
    (Appender.refusal path : Attempt α).map f = Appender.refusal path := by
  unfold Appender.refusal
  split <;> rfl

theorem Layer.createAll_of_isBlocked {t : FileTree} {cwd : Place} {c : Config} {path : String}
    (hp : c.writer.path? = some path) (hb : Appender.IsBlocked cwd path t) :
    (createAll cwd c t).1 = Appender.refusal path := by
  rw [createAll_fst, createFile_of_path hp, Appender.create_of_isBlocked hb, Attempt.map_refusal,
    Attempt.map_refusal]

namespace Registry

variable {r : Registry} {cwd : Place} {c : Config} {path : String}

def refused (path : String) : Installed :=
  match Appender.locate path with
  | .error _ => .failed
  | .ok _ => .panicked

/-- It is an error just where the path has no file name. -/
theorem refused_eq_failed_iff :
    refused path = .failed ↔ (Path.ofText path).fileName? = none := by
  rw [← Appender.exists_locate_eq_error_iff]
  unfold refused
  cases Appender.locate path <;> simp

/-- How a process deals with a config whose log file cannot be opened. -/
structure Refuses (r : Registry) (cwd : Place) (c : Config) (path : String) : Prop where
  layers : (Layer.createAll cwd c r.tree).1 = Appender.refusal path
  /-- Nothing is installed, whatever the scope, and what is installed stays, -/
  set : ∀ s, ∃ t, r.set s cwd c = (refused path, { r with tree := t })
  /-- and so it is where the level is looked at first. -/
  process : ∃ t, r.installGlobal cwd c = (refused path, { r with tree := t })
  threadLocal : ∃ t, r.installLocal cwd c = (refused path, { r with tree := t })

theorem set_of_isBlocked (hp : c.writer.path? = some path)
    (hb : Appender.IsBlocked cwd path r.tree) (s : Scope) :
    ∃ t, r.set s cwd c = (refused path, { r with tree := t }) := by
  have hlayers := Layer.createAll_of_isBlocked hp hb
  rcases hc : Layer.createAll cwd c r.tree with ⟨a, t⟩
  replace hlayers : a = Appender.refusal path := by rw [← hlayers, hc]
  refine ⟨t, ?_⟩
  rw [Appender.refusal] at hlayers
  rw [refused]
  split at hlayers <;> subst hlayers
  next e hl => rw [set_of_failed hc]
  next found hl => rw [set_of_panicked hc]

/-- **A log file that cannot be opened is never installed**, whatever is in the way of it. A path
without a file name is an error; everything else that is in the way is a panic. -/
theorem refuses_of_isBlocked (r : Registry) (cwd : Place) (c : Config) (hc : c.level ≠ .off)
    (path : String) (hp : c.writer.path? = some path) :
    (Appender.Obstacle r.tree cwd path → Appender.IsBlocked cwd path r.tree) ∧
    (Appender.IsBlocked cwd path r.tree → r.Refuses cwd c path) ∧
      (refused path = .failed ↔ (Path.ofText path).fileName? = none) ∧
      (refused path = .panicked ↔ (Path.ofText path).fileName? ≠ none) := by
  refine ⟨Appender.Obstacle.isBlocked, fun hb => ?_, refused_eq_failed_iff, ?_⟩
  · have hset := set_of_isBlocked hp hb
    refine ⟨Layer.createAll_of_isBlocked hp hb, hset, ?_, ?_⟩
    · rw [← install_process, install_of_not_off hc]
      exact hset .process
    · rw [← install_threadLocal, install_of_not_off hc]
      exact hset .threadLocal
  · rw [Ne, ← refused_eq_failed_iff]
    unfold refused
    split <;> simp

def folderTree : FileTree := Preparation.tree [.folder "d"]

/-- A folder without a name is an error, and a folder with a name is a panic. -/
theorem refuses_folders :
    (({ tree := folderTree } : Registry).Refuses Preparation.workFolder
        ⟨.warn, .file "d/.."⟩ "d/.." ∧
      refused "d/.." = .failed) ∧
    ({ tree := folderTree } : Registry).Refuses Preparation.workFolder
        ⟨.debug, .both .stderr "d"⟩ "d" ∧
      refused "d" = .panicked := by
  obtain ⟨hblocked, hrefuses, -, -⟩ := refuses_of_isBlocked { tree := folderTree }
    Preparation.workFolder ⟨.warn, .file "d/.."⟩ (by decide) "d/.." rfl
  obtain ⟨hblocked', hrefuses', -, -⟩ := refuses_of_isBlocked { tree := folderTree }
    Preparation.workFolder ⟨.debug, .both .stderr "d"⟩ (by decide) "d" rfl
  exact ⟨⟨hrefuses (hblocked (.noFileName (by decide +kernel))), by decide +kernel⟩,
    hrefuses' (hblocked' (.isFolder (by decide +kernel))), by decide +kernel⟩

/-- Where a folder is in the way, everybody who should report an error panics instead. -/
theorem panicked_of_folder :
    Appender.Obstacle folderTree Preparation.workFolder "d" ∧
    (Layer.createAll Preparation.workFolder ⟨.debug, .file "d"⟩ folderTree).1 = .panicked ∧
    (({ tree := folderTree } : Registry).set .process Preparation.workFolder
      ⟨.debug, .file "d"⟩).1 = .panicked ∧
    (({ tree := folderTree } : Registry).set .threadLocal Preparation.workFolder
      ⟨.debug, .file "d"⟩).1 = .panicked ∧
    (({ tree := folderTree } : Registry).installGlobal Preparation.workFolder
      ⟨.debug, .file "d"⟩).1 = .panicked ∧
    (({ tree := folderTree } : Registry).installLocal Preparation.workFolder
      ⟨.debug, .file "d"⟩).1 = .panicked :=
  ⟨.isFolder (by decide +kernel), by decide +kernel⟩

end Registry

end Handoff.Log
