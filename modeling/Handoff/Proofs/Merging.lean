import Handoff.Log.Config

/-! Merged configs: in whatever way a sum is bracketed, the most verbose level of its parts and the
last destination of each kind remain. -/
namespace Handoff.Log

inductive Bracketing (α : Type) where
  | part (x : α)
  | plus (left right : Bracketing α)
deriving DecidableEq, Repr

namespace Bracketing

variable {α β : Type}

def total [Add α] : Bracketing α → α
  | part x => x
  | plus l r => l.total + r.total

def parts : Bracketing α → List α
  | part x => [x]
  | plus l r => l.parts ++ r.parts

def leftmost (x : α) (xs : List α) : Bracketing α :=
  xs.foldl (fun t y => .plus t (.part y)) (.part x)

theorem parts_foldl (t : Bracketing α) (xs : List α) :
    (xs.foldl (fun t y => plus t (.part y)) t).parts = t.parts ++ xs := by
  induction xs generalizing t with
  | nil => simp
  | cons y rest ih =>
    rw [List.foldl_cons, ih, parts, parts, List.append_assoc]
    rfl

theorem total_foldl [Add α] (t : Bracketing α) (xs : List α) :
    (xs.foldl (fun t y => plus t (.part y)) t).total = xs.foldl (· + ·) t.total := by
  induction xs generalizing t with
  | nil => rfl
  | cons y rest ih => exact ih _

theorem parts_leftmost (x : α) (xs : List α) : (leftmost x xs).parts = x :: xs :=
  parts_foldl (.part x) xs

theorem total_leftmost [Add α] (x : α) (xs : List α) :
    (leftmost x xs).total = xs.foldl (· + ·) x :=
  total_foldl (.part x) xs

theorem exists_of_ne_nil {xs : List α} (hx : xs ≠ []) : ∃ t : Bracketing α, t.parts = xs := by
  cases xs with
  | nil => exact (hx rfl).elim
  | cons x rest => exact ⟨leftmost x rest, parts_leftmost x rest⟩

/-- What the later one of two parts supplies wins; so over a whole sum the last one that is supplied
remains. -/
theorem last_of_total [Add α] (slot : α → Option β)
    (hslot : ∀ a b, slot (a + b) = (slot b).or (slot a)) (t : Bracketing α) :
    slot t.total = (t.parts.filterMap slot).getLast? := by
  induction t with
  | part x =>
    simp only [total, parts, List.filterMap_cons, List.filterMap_nil]
    cases slot x <;> rfl
  | plus l r ihl ihr =>
    rw [total, parts, hslot, ihl, ihr, List.filterMap_append, List.getLast?_append]

end Bracketing

namespace Level

theorem eq_of_rank {a b : Level} (h : a.rank = b.rank) : a = b := by
  cases a <;> cases b <;> first | rfl | cases h

theorem max_cases (a b : Level) : a.max b = a ∨ a.max b = b := by
  unfold max
  split
  · exact .inr rfl
  · exact .inl rfl

theorem rank_max (a b : Level) : a.rank ≤ (a.max b).rank ∧ b.rank ≤ (a.max b).rank := by
  unfold max
  split <;> omega

end Level

namespace Writer

theorem ofParts_display?_path? (w : Writer) : ofParts w.display? w.path? = w := by
  cases w <;> rfl

theorem ext {v w : Writer} (hd : v.display? = w.display?) (hp : v.path? = w.path?) : v = w := by
  rw [← ofParts_display?_path? v, ← ofParts_display?_path? w, hd, hp]

theorem display?_add (v w : Writer) : (v + w).display? = w.display?.or v.display? := by
  cases v <;> cases w <;> rfl

theorem path?_add (v w : Writer) : (v + w).path? = w.path?.or v.path? := by
  cases v <;> cases w <;> rfl

theorem add_assoc (u v w : Writer) : u + v + w = u + (v + w) := by
  apply ext
  · simp only [display?_add, Option.or_assoc]
  · simp only [path?_add, Option.or_assoc]

theorem none_add (w : Writer) : none + w = w := by
  apply ext
  · rw [display?_add, display?, Option.or_none]
  · rw [path?_add, path?, Option.or_none]

theorem add_none (w : Writer) : w + none = w := by
  apply ext
  · rw [display?_add, display?, Option.none_or]
  · rw [path?_add, path?, Option.none_or]

theorem add_self (w : Writer) : w + w = w := by
  apply ext
  · rw [display?_add, Option.or_self]
  · rw [path?_add, Option.or_self]

end Writer

namespace Config

/-- A config has what merging these configs should give. -/
structure IsMergeOf (c : Config) (cs : List Config) : Prop where
  level : ∃ part ∈ cs, part.level = c.level
  verbose : ∀ part ∈ cs, part.level.rank ≤ c.level.rank
  display : c.writer.display? = (cs.filterMap (·.writer.display?)).getLast?
  path : c.writer.path? = (cs.filterMap (·.writer.path?)).getLast?

namespace IsMergeOf

variable {c d : Config} {cs : List Config}

theorem unique (hc : c.IsMergeOf cs) (hd : d.IsMergeOf cs) : c = d := by
  obtain ⟨a, ha, hac⟩ := hc.level
  obtain ⟨b, hb, hbd⟩ := hd.level
  have hle : c.level.rank ≤ d.level.rank := hac ▸ hd.verbose a ha
  have hge : d.level.rank ≤ c.level.rank := hbd ▸ hc.verbose b hb
  have hlevel : c.level = d.level := Level.eq_of_rank (Nat.le_antisymm hle hge)
  have hwriter : c.writer = d.writer :=
    Writer.ext (hc.display.trans hd.display.symm) (hc.path.trans hd.path.symm)
  cases c
  cases d
  cases hlevel
  cases hwriter
  rfl

theorem keeps (hc : c.IsMergeOf cs) {part : Config} (hp : part ∈ cs) :
    (part.writer.display?.isSome → c.writer.display?.isSome) ∧
      (part.writer.path?.isSome → c.writer.path?.isSome) := by
  have hsome {β : Type} (slot : Config → Option β) (hpart : (slot part).isSome) :
      (cs.filterMap slot).getLast?.isSome := by
    obtain ⟨x, hx⟩ := Option.isSome_iff_exists.mp hpart
    rw [List.getLast?_isSome]
    exact List.ne_nil_of_mem (List.mem_filterMap.mpr ⟨part, hp, hx⟩)
  rw [hc.display, hc.path]
  exact ⟨hsome (·.writer.display?), hsome (·.writer.path?)⟩

end IsMergeOf

theorem isMergeOf_total (t : Bracketing Config) : t.total.IsMergeOf t.parts where
  level := by
    induction t with
    | part c => exact ⟨c, List.mem_singleton_self c, rfl⟩
    | plus l r ihl ihr =>
      obtain ⟨a, ha, hal⟩ := ihl
      obtain ⟨b, hb, hbr⟩ := ihr
      rcases l.total.level.max_cases r.total.level with hmax | hmax
      · exact ⟨a, List.mem_append_left _ ha, hal.trans hmax.symm⟩
      · exact ⟨b, List.mem_append_right _ hb, hbr.trans hmax.symm⟩
  verbose := by
    induction t with
    | part c =>
      intro part hp
      cases List.mem_singleton.mp hp
      exact Nat.le_refl _
    | plus l r ihl ihr =>
      obtain ⟨hl, hr⟩ := l.total.level.rank_max r.total.level
      intro part hp
      rcases List.mem_append.mp hp with hp | hp
      · exact Nat.le_trans (ihl part hp) hl
      · exact Nat.le_trans (ihr part hp) hr
  display := Bracketing.last_of_total (·.writer.display?)
    (fun a b => Writer.display?_add a.writer b.writer) t
  path := Bracketing.last_of_total (·.writer.path?)
    (fun a b => Writer.path?_add a.writer b.writer) t

/-- All ways to bracket the same parts give the same config, the one that is computed for them. -/
theorem sum?_parts (t : Bracketing Config) : sum? t.parts = some t.total := by
  cases hparts : t.parts with
  | nil =>
    obtain ⟨part, hp, -⟩ := (isMergeOf_total t).level
    rw [hparts] at hp
    cases hp
  | cons c rest =>
    have hmerge := isMergeOf_total t
    have hleft := isMergeOf_total (.leftmost c rest)
    rw [hparts] at hmerge
    rw [Bracketing.parts_leftmost] at hleft
    rw [sum?, ← Bracketing.total_leftmost, hleft.unique hmerge]

theorem add_self (c : Config) : c + c = c := by
  have hlevel : c.level.max c.level = c.level := (c.level.max_cases c.level).elim id id
  change (⟨c.level.max c.level, c.writer + c.writer⟩ : Config) = c
  rw [hlevel, Writer.add_self]

theorem none_add (c : Config) : ⟨.off, .none⟩ + c = c := by
  change (⟨Level.off.max c.level, .none + c.writer⟩ : Config) = c
  rw [Writer.none_add]
  cases c with
  | mk level writer => cases level <;> rfl

theorem add_none (c : Config) : c + ⟨.off, .none⟩ = c := by
  change (⟨c.level.max .off, c.writer + .none⟩ : Config) = c
  rw [Writer.add_none]
  cases c with
  | mk level writer => cases level <;> rfl

theorem total_eq_of_parts {t t' : Bracketing Config} (h : t.parts = t'.parts) :
    t.total = t'.total :=
  (isMergeOf_total t).unique (h ▸ isMergeOf_total t')

theorem add_assoc (a b c : Config) : a + b + c = a + (b + c) := by
  have hparts : (Bracketing.plus (.plus (.part a) (.part b)) (.part c)).parts =
      (Bracketing.plus (.part a) (.plus (.part b) (.part c))).parts := rfl
  exact total_eq_of_parts hparts

end Config

/-- The laws by which configs and their writers are merged. -/
structure MergeLaws : Prop where
  /-- The level is the most verbose one, and each destination the last one supplied. -/
  isMergeOf : ∀ (cs : List Config) (t : Bracketing Config), t.parts = cs → t.total.IsMergeOf cs
  /-- What a writer supplies is all that it is: neither destination, one of them or both. -/
  supplies : ∀ w : Writer, w = match w.display?, w.path? with
    | none, none => .none
    | some d, none => .display d
    | none, some path => .file path
    | some d, some path => .both d path
  brackets : ∀ (cs : List Config), cs ≠ [] →
    ∃ c, Config.sum? cs = some c ∧ ∀ t : Bracketing Config, t.parts = cs → t.total = c
  assoc : (∀ a b c : Config, a + b + c = a + (b + c)) ∧ ∀ u v w : Writer, u + v + w = u + (v + w)
  unit : (∀ w : Writer, .none + w = w ∧ w + .none = w) ∧
    ∀ c : Config, ⟨.off, .none⟩ + c = c ∧ c + ⟨.off, .none⟩ = c
  idem : (∀ c : Config, c + c = c) ∧ ∀ w : Writer, w + w = w
  /-- No destination of a part is lost. -/
  keeps : ∀ t : Bracketing Config, ∀ part ∈ t.parts,
    (part.writer.display?.isSome → t.total.writer.display?.isSome) ∧
      (part.writer.path?.isSome → t.total.writer.path?.isSome)

theorem mergeLaws : MergeLaws where
  isMergeOf cs t ht := ht ▸ Config.isMergeOf_total t
  supplies w := by cases w <;> rfl
  brackets cs hcs := by
    obtain ⟨t, ht⟩ := Bracketing.exists_of_ne_nil hcs
    refine ⟨t.total, ht ▸ Config.sum?_parts t, fun t' ht' => ?_⟩
    exact Config.total_eq_of_parts (ht'.trans ht.symm)
  assoc := ⟨Config.add_assoc, Writer.add_assoc⟩
  unit := ⟨fun w => ⟨w.none_add, w.add_none⟩, fun c => ⟨c.none_add, c.add_none⟩⟩
  idem := ⟨Config.add_self, Writer.add_self⟩
  keeps t part hp := (Config.isMergeOf_total t).keeps hp

end Handoff.Log
