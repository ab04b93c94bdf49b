import Handoff.Log.Session

/-! Installing a subscriber for the whole process or for one thread, and what goes on in a process
between such calls. -/
namespace Handoff.Log

namespace Registry

/-- Installs whatever the level: for all threads, which works once, or for the main thread. The log
file is opened in any case. -/
def set (s : Scope) (r : Registry) (cwd : Place) (c : Config) : Installed × Registry :=
  match Layer.createAll cwd c r.tree with
  | (.failed _, t) => (.failed, { r with tree := t })
  | (.panicked, t) => (.panicked, { r with tree := t })
  | (.done layers, t) => match s, r.everywhere with
    | .threadLocal, _ => (.installed, { r with tree := t, here := some layers })
    | .process, some _ => (.failed, { r with tree := t })
    | .process, none => (.installed, { r with tree := t, everywhere := some layers })

section Set

variable {s : Scope} {r : Registry} {cwd : Place} {c : Config} {t : FileTree}

theorem set_of_failed {e : AppenderError} (hc : Layer.createAll cwd c r.tree = (.failed e, t)) :
    r.set s cwd c = (.failed, { r with tree := t }) := by
  simp only [set, hc]

theorem set_of_panicked (hc : Layer.createAll cwd c r.tree = (.panicked, t)) :
    r.set s cwd c = (.panicked, { r with tree := t }) := by
  simp only [set, hc]

theorem set_threadLocal {layers : List Layer}
    (hc : Layer.createAll cwd c r.tree = (.done layers, t)) :
    r.set .threadLocal cwd c = (.installed, { r with tree := t, here := some layers }) := by
  simp only [set, hc]

theorem set_process_of_none {layers : List Layer}
    (hc : Layer.createAll cwd c r.tree = (.done layers, t)) (hr : r.everywhere = none) :
    r.set .process cwd c = (.installed, { r with tree := t, everywhere := some layers }) := by
  simp only [set, hc, hr]

theorem set_process_of_some {layers : List Layer} {first : Subscriber}
    (hc : Layer.createAll cwd c r.tree = (.done layers, t)) (hr : r.everywhere = some first) :
    r.set .process cwd c = (.failed, { r with tree := t }) := by
  simp only [set, hc, hr]

end Set

/-- With the level off nothing is installed. -/
def install (s : Scope) (r : Registry) (cwd : Place) (c : Config) : Installed × Registry :=
  if c.level = .off then (.nothing, r) else r.set s cwd c

theorem install_of_off {c : Config} (hc : c.level = .off) (s : Scope) (r : Registry) (cwd : Place) :
    r.install s cwd c = (.nothing, r) := if_pos hc

theorem install_of_not_off {c : Config} (hc : c.level ≠ .off) (s : Scope) (r : Registry)
    (cwd : Place) : r.install s cwd c = r.set s cwd c := if_neg hc

theorem install_process (r : Registry) (cwd : Place) (c : Config) :
    r.install .process cwd c = r.installGlobal cwd c := by
  unfold install installGlobal set
  split
  · rfl
  · rcases Layer.createAll cwd c r.tree with ⟨_ | _ | _, t⟩
    · cases r.everywhere <;> rfl
    · rfl
    · rfl

theorem install_threadLocal (r : Registry) (cwd : Place) (c : Config) :
    r.install .threadLocal cwd c = r.installLocal cwd c := by
  unfold install installLocal set
  split
  · rfl
  · rcases Layer.createAll cwd c r.tree with ⟨_ | _ | _, t⟩ <;> rfl

inductive Deed where
  | install (s : Scope) (c : Config)
  /-- A guard of the main thread is dropped, and the subscriber from before it is back. -/
  | restoreLocal (before : Option Subscriber)
  | emit (l : Line)
  /-- The files are changed by someone else. -/
  | retree (t : FileTree)
deriving DecidableEq, Repr

def step (cwd : Place) (r : Registry) : Deed → Registry
  | .install s c => (r.install s cwd c).2
  | .restoreLocal before => { r with here := before }
  | .emit l => r.emit l
  | .retree t => { r with tree := t }

def after (cwd : Place) (r : Registry) (xs : List Deed) : Registry := xs.foldl (step cwd) r

end Registry

end Handoff.Log
