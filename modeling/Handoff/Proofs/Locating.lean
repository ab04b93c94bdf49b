import Handoff.Log.Appender

/-! A path is taken apart into the folder above it and a name in this folder: put together again
they lead to the same place. -/
namespace Handoff

namespace Text

variable {α : Type} {p : α → Bool}

theorem dropEnd_isPrefix (p : α → Bool) (l : List α) : dropEnd p l <+: l := by
  induction l with
  | nil => exact List.prefix_rfl
  | cons a rest ih =>
    rw [dropEnd]
    split
    next => split <;> simp
    next => exact List.cons_prefix_cons.mpr ⟨rfl, ih⟩

theorem mem_dropEnd {a : α} (ha : p a = false) {l : List α} (hl : a ∈ l) : a ∈ dropEnd p l := by
  induction l with
  | nil => cases hl
  | cons b rest ih =>
    rw [dropEnd]
    rcases List.mem_cons.mp hl with rfl | hl
    · split <;> simp [ha]
    · have hrest := ih hl
      split
      next heq =>
        rw [heq] at hrest
        cases hrest
      next => exact List.mem_cons_of_mem _ hrest

theorem filterMap_dropEnd {β : Type} {f : α → Option β} (hf : ∀ a, p a → f a = none)
    (l : List α) : (dropEnd p l).filterMap f = l.filterMap f := by
  induction l with
  | nil => rfl
  | cons a rest ih =>
    rw [dropEnd, List.filterMap_cons, ← ih]
    split
    next heq =>
      cases ha : p a with
      | true => simp [hf a ha, heq]
      | false => simp [heq, List.filterMap_cons]
    next => rw [List.filterMap_cons]

theorem eq_nil_or_concat_dropEnd (p : α → Bool) (l : List α) :
    dropEnd p l = [] ∨ ∃ before a, dropEnd p l = before ++ [a] ∧ p a = false := by
  induction l with
  | nil => exact .inl rfl
  | cons b rest ih =>
    rw [dropEnd]
    rcases ih with hnil | ⟨before, a, hrest, ha⟩
    · rw [hnil]
      cases hb : p b with
      | true => exact .inl (by simp)
      | false => exact .inr ⟨[], b, by simp, hb⟩
    · rw [hrest]
      right
      refine ⟨b :: before, a, ?_, ha⟩
      cases before <;> rfl

end Text

namespace Path

variable {p q : Path} {name : String}

theorem part?_of_isBlank (piece : String) (hp : isBlank piece) : part? piece = none := by
  simp [part?, hp]

theorem exists_part? {piece : String} (hb : isBlank piece = false) : ∃ x, part? piece = some x := by
  unfold part?
  rw [hb, if_neg Bool.false_ne_true]
  split <;> exact ⟨_, rfl⟩

theorem eq_of_part? {piece s : String} (hp : part? piece = some (.name s)) : piece = s := by
  unfold part? at hp
  split at hp
  · cases hp
  · split at hp <;> cases hp
    rfl

/-- The path is written from a leading dot on, which counts as a part. -/
def IsDotted (p : Path) : Prop := ∃ rest, p = ⟨false, "." :: rest⟩

theorem parts_of_not_isDotted (hp : ¬ p.IsDotted) :
    p.parts = (if p.isAbsolute then [.root] else []) ++ p.pieces.filterMap part? := by
  unfold parts
  split
  next h => simp [h]
  next rest h h' => exact (hp ⟨rest, by rw [← h, ← h']⟩).elim
  next h _ => simp [h]

theorem trim_of_not_isDotted (hp : ¬ p.IsDotted) :
    p.trim = { p with pieces := Text.dropEnd isBlank p.pieces } := by
  unfold trim
  split
  next rest h h' => exact (hp ⟨rest, by rw [← h, ← h']⟩).elim
  next => rfl

theorem parts_join {x : Part} (hx : part? name = some x) (q : Path) :
    (q.join name).parts = q.parts ++ [x] := by
  have hone : [name].filterMap part? = [x] := by simp [hx]
  by_cases hq : q.IsDotted
  · obtain ⟨rest, rfl⟩ := hq
    change .here :: (rest ++ [name]).filterMap part? = .here :: rest.filterMap part? ++ [x]
    rw [List.filterMap_append, hone]
    rfl
  · have hjoin : ¬ (q.join name).IsDotted := by
      rintro ⟨rest, heq⟩
      obtain ⟨isAbsolute, pieces⟩ := q
      obtain ⟨rfl, hpieces⟩ := Path.mk.inj heq
      cases pieces with
      | nil =>
        cases hpieces
        cases hx
      | cons piece more =>
        cases hpieces
        exact hq ⟨more, rfl⟩
    rw [parts_of_not_isDotted hq, parts_of_not_isDotted hjoin, List.append_assoc, ← hone,
      ← List.filterMap_append]
    rfl

theorem trim_isPrefix (p : Path) : p.trim.pieces <+: p.pieces := by
  by_cases hp : p.IsDotted
  · obtain ⟨rest, rfl⟩ := hp
    exact List.cons_prefix_cons.mpr ⟨rfl, Text.dropEnd_isPrefix isBlank rest⟩
  · rw [trim_of_not_isDotted hp]
    exact Text.dropEnd_isPrefix isBlank p.pieces

theorem isAbsolute_trim (p : Path) : p.trim.isAbsolute = p.isAbsolute := by
  by_cases hp : p.IsDotted
  · obtain ⟨rest, rfl⟩ := hp
    rfl
  · rw [trim_of_not_isDotted hp]

theorem mem_trim {piece : String} (hb : isBlank piece = false) (hp : piece ∈ p.pieces) :
    piece ∈ p.trim.pieces := by
  by_cases hd : p.IsDotted
  · obtain ⟨rest, rfl⟩ := hd
    rcases List.mem_cons.mp hp with rfl | hp
    · exact List.mem_cons_self
    · exact List.mem_cons_of_mem _ (Text.mem_dropEnd hb hp)
  · rw [trim_of_not_isDotted hd]
    exact Text.mem_dropEnd hb hp

theorem parts_trim (p : Path) : p.trim.parts = p.parts := by
  have hdrop (pieces : List String) :
      (Text.dropEnd isBlank pieces).filterMap part? = pieces.filterMap part? :=
    Text.filterMap_dropEnd part?_of_isBlank pieces
  by_cases hp : p.IsDotted
  · obtain ⟨rest, rfl⟩ := hp
    exact congrArg (.here :: ·) (hdrop rest)
  · have htrim : ¬ p.trim.IsDotted := by
      rintro ⟨rest, heq⟩
      have habsolute := p.isAbsolute_trim
      obtain ⟨more, hmore⟩ := p.trim_isPrefix
      rw [heq] at habsolute hmore
      obtain ⟨isAbsolute, pieces⟩ := p
      cases habsolute
      cases hmore
      exact hp ⟨rest ++ more, rfl⟩
    rw [parts_of_not_isDotted hp, parts_of_not_isDotted htrim, isAbsolute_trim,
      trim_of_not_isDotted hp, hdrop]

/-- A path whose last part is a name ends with this name, once it is trimmed. -/
theorem trim_of_getLast? (hp : p.parts.getLast? = some (.name name)) :
    part? name = some (.name name) ∧ ∃ pieces, p.trim.pieces = pieces ++ [name] := by
  have hlast (pieces : List String) (front : List Part) (hfront : .name name ∉ front)
      (hl : (front ++ pieces.filterMap part?).getLast? = some (.name name)) :
      part? name = some (.name name) ∧
        ∃ before, Text.dropEnd isBlank pieces = before ++ [name] := by
    rw [← Text.filterMap_dropEnd part?_of_isBlank pieces] at hl
    rcases Text.eq_nil_or_concat_dropEnd isBlank pieces with hnil | ⟨before, piece, hdrop, hb⟩
    · rw [hnil, List.filterMap_nil, List.append_nil] at hl
      exact (hfront (List.mem_of_getLast? hl)).elim
    · obtain ⟨x, hx⟩ := exists_part? hb
      have hone : [piece].filterMap part? = [x] := by simp [hx]
      rw [hdrop, List.filterMap_append, hone, ← List.append_assoc, List.getLast?_concat] at hl
      obtain rfl := Option.some.inj hl
      obtain rfl := eq_of_part? hx
      exact ⟨hx, before, hdrop⟩
  by_cases hd : p.IsDotted
  · obtain ⟨rest, rfl⟩ := hd
    obtain ⟨hname, before, hdrop⟩ := hlast rest [.here] (by simp) hp
    exact ⟨hname, "." :: before, congrArg ("." :: ·) hdrop⟩
  · rw [parts_of_not_isDotted hd] at hp
    rw [trim_of_not_isDotted hd]
    exact hlast _ _ (by split <;> simp) hp

theorem size_intercalate_cons (piece : String) {rest : List String} (hr : rest ≠ []) :
    ("/".intercalate (piece :: rest)).utf8ByteSize =
      piece.utf8ByteSize + 1 + ("/".intercalate rest).utf8ByteSize := by
  have hslash : "/".utf8ByteSize = 1 := by decide
  rw [String.intercalate_cons_of_ne_nil hr, String.utf8ByteSize_append, String.utf8ByteSize_append,
    hslash]

theorem size_le_of_sublist (hq : q.isAbsolute = p.isAbsolute)
    (hl : q.pieces.Sublist p.pieces) : q.size ≤ p.size := by
  have hpieces {xs ys : List String} (hl : xs.Sublist ys) :
      ("/".intercalate xs).utf8ByteSize ≤ ("/".intercalate ys).utf8ByteSize := by
    induction hl with
    | slnil => exact Nat.le_refl _
    | @cons xs ys s hl ih =>
      by_cases hys : ys = []
      · subst hys
        cases hl
        simp
      · rw [size_intercalate_cons s hys]
        omega
    | @cons_cons xs ys s hl ih =>
      by_cases hys : ys = []
      · subst hys
        cases hl
        exact Nat.le_refl _
      · rw [size_intercalate_cons s hys]
        by_cases hxs : xs = []
        · subst hxs
          rw [String.intercalate_singleton]
          omega
        · rw [size_intercalate_cons s hxs]
          omega
  rw [size, size, text, text, String.utf8ByteSize_append, String.utf8ByteSize_append, hq]
  exact Nat.add_le_add_left (hpieces hl) _

theorem hasNul_iff (p : Path) : p.hasNul ↔ ∃ piece ∈ p.pieces, '\x00' ∈ piece.toList := by
  have hmem (pieces : List String) :
      '\x00' ∈ ("/".intercalate pieces).toList ↔ ∃ piece ∈ pieces, '\x00' ∈ piece.toList := by
    induction pieces with
    | nil => simp
    | cons piece rest ih =>
      by_cases hrest : rest = []
      · subst hrest
        simp
      · have hslash : '\x00' ∉ "/".toList := by decide
        rw [String.intercalate_cons_of_ne_nil hrest, String.toList_append, String.toList_append,
          List.mem_append, List.mem_append, ih]
        simp only [hslash, or_false, List.mem_cons, exists_eq_or_imp]
  have hslash : '\x00' ∉ (if p.isAbsolute then "/" else "").toList := by
    split <;> decide
  simp only [hasNul, decide_eq_true_eq, text, String.toList_append, List.mem_append, hslash,
    false_or, hmem]

theorem isBlank_of_nul {piece : String} (hn : '\x00' ∈ piece.toList) : isBlank piece = false := by
  cases hb : isBlank piece with
  | false => rfl
  | true =>
    simp only [isBlank, Bool.or_eq_true, beq_iff_eq] at hb
    rcases hb with rfl | rfl <;> revert hn <;> decide

theorem exists_parent? (hn : p.fileName? = some name) : ∃ folder, p.parent? = some folder := by
  unfold fileName? at hn
  unfold parent?
  split at hn
  next s hlast => exact ⟨_, by rw [hlast]⟩
  next => cases hn

/-- A path leads to a name in a folder. -/
structure Splits (p folder : Path) (name : String) : Prop where
  parts : p.parts = folder.parts ++ [.name name]
  join : (folder.join name).parts = p.parts
  size : (folder.join name).size ≤ p.size
  size_folder : folder.size ≤ (folder.join name).size
  hasNul : (folder.join name).hasNul = p.hasNul
  hasNul_folder : folder.hasNul → (folder.join name).hasNul

theorem trim_of_parent? {folder : Path} (hf : p.parent? = some folder)
    (hn : p.fileName? = some name) : part? name = some (.name name) ∧ ∃ pieces,
      p.trim = (Path.mk p.isAbsolute pieces).join name ∧
        folder = (Path.mk p.isAbsolute pieces).trim := by
  have hlast : p.parts.getLast? = some (.name name) := by
    unfold fileName? at hn
    split at hn <;> cases hn
    assumption
  obtain ⟨hname, pieces, hpieces⟩ := trim_of_getLast? hlast
  refine ⟨hname, pieces, ?_, ?_⟩
  · rw [← p.isAbsolute_trim, join, ← hpieces]
  · unfold parent? at hf
    simp only [hlast, Option.some.injEq] at hf
    rw [← hf, hpieces, List.dropLast_concat, isAbsolute_trim]

theorem splits {folder : Path} (hf : p.parent? = some folder) (hn : p.fileName? = some name) :
    p.Splits folder name := by
  obtain ⟨hname, pieces, htrim, rfl⟩ := trim_of_parent? hf hn
  have hpieces : p.trim.pieces = pieces ++ [name] := by rw [htrim, join]
  have hparts : p.parts = (Path.mk p.isAbsolute pieces).trim.parts ++ [.name name] := by
    rw [← parts_trim p, htrim, parts_join hname, parts_trim]
  have hsub : ((Path.mk p.isAbsolute pieces).trim.join name).pieces.Sublist p.pieces := by
    have hpre := (Path.mk p.isAbsolute pieces).trim_isPrefix.sublist.append_right [name]
    exact hpre.trans (hpieces ▸ p.trim_isPrefix.sublist)
  refine ⟨hparts, by rw [parts_join hname, hparts], size_le_of_sublist (isAbsolute_trim _) hsub,
    size_le_of_sublist rfl (List.sublist_append_left _ _), ?_, ?_⟩
  · rw [Bool.eq_iff_iff, hasNul_iff, hasNul_iff]
    constructor
    · exact fun ⟨piece, hp, hn⟩ => ⟨piece, hsub.subset hp, hn⟩
    · rintro ⟨piece, hp, hn⟩
      have hb := isBlank_of_nul hn
      have hkept := mem_trim hb hp
      rw [hpieces] at hkept
      refine ⟨piece, ?_, hn⟩
      rcases List.mem_append.mp hkept with hkept | hkept
      · exact List.mem_append_left _ (mem_trim hb hkept)
      · exact List.mem_append_right _ hkept
  · rw [hasNul_iff, hasNul_iff]
    exact fun ⟨piece, hp, hn⟩ => ⟨piece, List.mem_append_left _ hp, hn⟩

end Path

namespace FileTree

variable {t : FileTree} {cwd place : Place} {p folder : Path} {name : String}

theorem reach_eq_ok_iff : t.reach cwd p = .ok place ↔
    p.parts ≠ [] ∧ p.hasNul = false ∧ p.size ≤ pathLimit ∧
      p.parts.foldlM t.follow cwd = .ok place := by
  unfold reach
  split
  next h => simp [h]
  next h =>
    split
    next hn => simp [hn]
    next hn =>
      split
      next hs =>
        simp
        omega
      next hs => simp [h, hn, Nat.le_of_not_lt hs]

/-- What a path leads to its folder and its name lead to. -/
theorem reach_join (hs : p.Splits folder name) (hr : t.reach cwd p = .ok place) :
    t.reach cwd (folder.join name) = .ok place := by
  obtain ⟨hne, hnul, hsize, hfold⟩ := reach_eq_ok_iff.mp hr
  refine reach_eq_ok_iff.mpr
    ⟨by rwa [hs.join], hs.hasNul.trans hnul, Nat.le_trans hs.size hsize, ?_⟩
  rwa [hs.join]

theorem get?_of_follow {here : Place} {part : Path.Part} (hf : t.follow here part = .ok place) :
    t.get? here = some .folder := by
  unfold follow at hf
  split at hf <;> first | cases hf | assumption

/-- Where a folder is, none is made. -/
theorem makeBelow_of_isFolder (n : Nat) (hp : p.parts = [] ∨ t.reach cwd p = .ok place)
    (hf : t.get? place = some .folder) : t.makeBelow cwd p n = (true, t) := by
  by_cases hempty : p.parts = []
  · cases n <;> simp [makeBelow, hempty]
  · have hr := hp.resolve_left hempty
    have hfolder : t.isFolder cwd p := by simp [isFolder, hr, hf]
    cases n with
    | zero => simp [makeBelow, hfolder]
    | succ n =>
      have htaken : t.makeFolder cwd p = .error .taken := by
        simp [makeFolder, hr, hf, Bind.bind, Except.bind]
      simp [makeBelow, hempty, htaken, hfolder]

/-- If there is a way to a name in a folder, this folder is there, and nothing has to be made. -/
theorem makeFolders_of_reach (hs : p.Splits folder name)
    (hr : t.reach cwd (folder.join name) = .ok place) : t.makeFolders cwd folder = (true, t) := by
  obtain ⟨-, hnul, hsize, hfold⟩ := reach_eq_ok_iff.mp hr
  rw [hs.join, hs.parts, List.foldlM_append] at hfold
  cases hhere : folder.parts.foldlM t.follow cwd with
  | error e =>
    rw [hhere] at hfold
    cases hfold
  | ok here =>
    rw [hhere] at hfold
    have hfollow : t.follow here (.name name) = .ok place := by
      rw [← hfold]
      change _ = ([Path.Part.name name].foldlM t.follow here)
      rw [List.foldlM_cons]
      exact (bind_pure _).symm
    refine makeBelow_of_isFolder _ ?_ (get?_of_follow hfollow)
    by_cases hempty : folder.parts = []
    · exact .inl hempty
    · refine .inr (reach_eq_ok_iff.mpr ⟨hempty, ?_, Nat.le_trans hs.size_folder hsize, hhere⟩)
      cases hn : folder.hasNul with
      | false => rfl
      | true =>
        rw [hs.hasNul_folder hn] at hnul
        cases hnul

theorem isFolder_iff :
    t.isFolder cwd p ↔ ∃ place, t.reach cwd p = .ok place ∧ t.get? place = some .folder := by
  unfold isFolder
  split
  next h => simp [h]
  next h => simp [h]

/-- What can be opened can be reached, and what stands there is no folder. -/
theorem reach_of_openFile {opened : Place × FileTree} (ho : t.openFile cwd p = .ok opened) :
    t.reach cwd p = .ok opened.1 ∧ t.get? opened.1 ≠ some .folder := by
  unfold openFile at ho
  cases hr : t.reach cwd p with
  | error e =>
    rw [hr] at ho
    cases ho
  | ok here =>
    rw [hr] at ho
    simp only [Bind.bind, Except.bind] at ho
    split at ho <;> cases ho
    next h => exact ⟨rfl, by simp [h]⟩
    next h => exact ⟨rfl, by simp [h]⟩

/-- A file that cannot be opened at once, and not after its folders were made. -/
theorem openDeep_eq_none (ho : ∀ r, t.openFile cwd (folder.join name) ≠ .ok r)
    (hm : (t.makeFolders cwd folder).1 → ∀ r,
      (t.makeFolders cwd folder).2.openFile cwd (folder.join name) ≠ .ok r) :
    (t.openDeep cwd folder name).1 = none := by
  simp only [openDeep]
  split
  next h => exact (ho _ h).elim
  next =>
    split
    next => rfl
    next t' hmade =>
      rw [hmade] at hm
      split
      next h => exact (hm rfl _ h).elim
      next => rfl

end FileTree

end Handoff
