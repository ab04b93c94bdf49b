import Handoff.Proofs.Opening

/-! The ways to write a path. Slashes that are doubled or at the end and dots between them count for
nothing; what counts is the list of components, and it alone decides which file a path names and
whether it names one. -/
namespace Handoff

namespace Text

variable {sep : Char} {cs : List Char}

theorem split_eq_splitOn (sep : Char) (cs : List Char) : split sep cs = cs.splitOn sep := by
  induction cs with
  | nil => rfl
  | cons c rest ih =>
    rw [split, ih, List.splitOn_cons_eq_if_modifyHead]
    by_cases hc : c = sep
    · rw [if_pos hc, if_pos (beq_iff_eq.mpr hc)]
    · rw [if_neg hc, if_neg (by simpa using hc)]
      cases hsplit : rest.splitOn sep with
      | nil => exact absurd hsplit (List.splitOn_ne_nil sep rest)
      | cons piece more => rfl

theorem splitOn_self_cons (sep : Char) (cs : List Char) :
    (sep :: cs).splitOn sep = [] :: cs.splitOn sep := by
  rw [List.splitOn_cons_eq_if_modifyHead, if_pos (beq_iff_eq.mpr rfl)]

theorem notMem_of_mem_splitOn {piece : List Char} (hp : piece ∈ cs.splitOn sep) : sep ∉ piece := by
  induction cs generalizing piece with
  | nil =>
    obtain rfl := List.mem_singleton.mp hp
    exact List.not_mem_nil
  | cons c rest ih =>
    rw [List.splitOn_cons_eq_if_modifyHead] at hp
    by_cases hc : c = sep
    · rw [if_pos (beq_iff_eq.mpr hc)] at hp
      rcases List.mem_cons.mp hp with rfl | hp
      · exact List.not_mem_nil
      · exact ih hp
    · rw [if_neg (by simpa using hc)] at hp
      cases hsplit : rest.splitOn sep with
      | nil => exact absurd hsplit (List.splitOn_ne_nil sep rest)
      | cons first more =>
        rw [hsplit] at hp ih
        rcases List.mem_cons.mp hp with rfl | hp
        · have hfirst := ih List.mem_cons_self
          simp [Ne.symm hc, hfirst]
        · exact ih (List.mem_cons_of_mem _ hp)

theorem splitOn_cons_of_ne {c : Char} (hc : c ≠ sep) (rest : List Char) :
    ∃ piece more, (c :: rest).splitOn sep = (c :: piece) :: more := by
  rw [List.splitOn_cons_eq_if_modifyHead, if_neg (by simpa using hc)]
  cases hsplit : rest.splitOn sep with
  | nil => exact absurd hsplit (List.splitOn_ne_nil sep rest)
  | cons piece more => exact ⟨piece, more, rfl⟩

end Text

namespace Path

/-- What a text begins with: the root, a dot, or neither of them. -/
def lead (cs : List Char) : List Part :=
  if cs.head? = some '/' then [.root]
  else if (cs.splitOn '/').head? = some ['.'] then [.here]
  else []

def cuts (s : String) : List String := (s.toList.splitOn '/').map String.ofList

/-- The parts between the slashes of a text, without those that are empty and without all dots but
a leading one. -/
def components (s : String) : List Part := lead s.toList ++ (cuts s).filterMap part?

/-- A name is put behind a folder, after a slash unless there is one or nothing before it. -/
def push (folder name : String) : String :=
  if folder = "" ∨ folder.toList.getLast? = some '/' then folder ++ name else folder ++ "/" ++ name

/-- One text has a piece more than the other, which is empty or a dot and is not its first one. -/
inductive Respells : String → String → Prop where
  | between (a b : String) {piece : String} (hp : isBlank piece) :
    Respells (a ++ "/" ++ b) (a ++ "/" ++ piece ++ "/" ++ b)
  | behind {a : String} (ha : a ≠ "") {piece : String} (hp : isBlank piece) :
    Respells a (a ++ "/" ++ piece)


section Components

variable {p q : Path} {s name : String} {cs : List Char}

theorem ofText_cases (s : String) :
    (∃ rest, s.toList = '/' :: rest ∧ ofText s = ⟨true, (rest.splitOn '/').map String.ofList⟩) ∨
      s.toList.head? ≠ some '/' ∧ ofText s = ⟨false, cuts s⟩ := by
  unfold ofText
  split
  next rest heq => exact .inl ⟨rest, heq, by rw [Text.split_eq_splitOn]⟩
  next hslash =>
    refine .inr ⟨fun hhead => ?_, by rw [Text.split_eq_splitOn, cuts]⟩
    obtain ⟨rest, heq⟩ := List.head?_eq_some_iff.mp hhead
    exact hslash rest heq

/-- The parts of a path are the components of the text it was read from. -/
theorem parts_ofText (s : String) : (ofText s).parts = components s := by
  unfold components
  rcases ofText_cases s with ⟨rest, heq, hread⟩ | ⟨hhead, hread⟩
  · have hlead : lead ('/' :: rest) = [.root] := by simp [lead]
    rw [hread, cuts, heq, hlead, Text.splitOn_self_cons]
    rfl
  · rw [hread, lead, if_neg hhead, cuts]
    cases hsplit : s.toList.splitOn '/' with
    | nil => exact absurd hsplit (List.splitOn_ne_nil '/' s.toList)
    | cons piece more =>
      by_cases hdot : piece = ['.']
      · subst hdot
        rfl
      · have hplain : ¬ IsDotted ⟨false, (piece :: more).map String.ofList⟩ := by
          rintro ⟨rest, heq⟩
          obtain ⟨-, hpieces⟩ := Path.mk.inj heq
          have hfirst : String.ofList piece = "." := (List.cons.inj hpieces).1
          apply hdot
          rw [← String.toList_ofList (l := piece), hfirst]
          rfl
        rw [parts_of_not_isDotted hplain]
        simp [hdot]

theorem root_notMem_filterMap (pieces : List String) : .root ∉ pieces.filterMap part? := by
  intro hmem
  obtain ⟨piece, -, hpiece⟩ := List.mem_filterMap.mp hmem
  unfold part? at hpiece
  split at hpiece
  · cases hpiece
  · split at hpiece <;> cases hpiece

theorem getLast?_parts_eq_root_iff : p.parts.getLast? = some .root ↔ p.parts = [.root] := by
  constructor
  · intro hlast
    have hroot (front : List Part) (pieces : List String)
        (hl : (front ++ pieces.filterMap part?).getLast? = some .root) :
        pieces.filterMap part? = [] := by
      cases hpart : (pieces.filterMap part?).getLast? with
      | none => exact List.getLast?_eq_none_iff.mp hpart
      | some x =>
        rw [List.getLast?_append, hpart, Option.some_or] at hl
        cases hl
        exact (root_notMem_filterMap pieces (List.mem_of_getLast? hpart)).elim
    by_cases hd : p.IsDotted
    · obtain ⟨rest, rfl⟩ := hd
      have hnil := hroot [.here] rest hlast
      change (.here :: rest.filterMap part?).getLast? = some .root at hlast
      rw [hnil] at hlast
      cases hlast
    · rw [parts_of_not_isDotted hd] at hlast ⊢
      have hnil := hroot _ p.pieces hlast
      rw [hnil, List.append_nil] at hlast ⊢
      split at hlast
      next habsolute => rw [if_pos habsolute]
      next => cases hlast
  · intro heq
    rw [heq]
    rfl

theorem fileName?_eq_some_iff : p.fileName? = some name ↔ p.parts.getLast? = some (.name name) := by
  unfold fileName?
  split
  next s hlast => simp [hlast]
  next hlast =>
    refine ⟨fun h => (by cases h), fun h => (hlast name h).elim⟩

theorem parent?_eq_none_iff : p.parent? = none ↔ p.parts = [] ∨ p.parts = [.root] := by
  rw [← getLast?_parts_eq_root_iff, ← List.getLast?_eq_none_iff]
  unfold parent?
  split
  next hlast => simp [hlast]
  next hlast => simp [hlast]
  next x hroot hlast =>
    have hne : x ≠ .root := fun heq => hroot (heq ▸ rfl)
    simp [hlast, hne]

theorem cuts_append (a b : String) : cuts (a ++ "/" ++ b) = cuts a ++ cuts b := by
  have hslash : "/".toList = ['/'] := rfl
  unfold cuts
  rw [String.toList_append, String.toList_append, hslash, List.append_assoc, List.singleton_append,
    List.splitOn_append_cons_self, List.map_append]

/-- What a text begins with is seen before its first slash, unless this comes first of all. -/
theorem lead_append (hc : cs ≠ []) (rest : List Char) : lead (cs ++ '/' :: rest) = lead cs := by
  have hsplit := List.splitOn_ne_nil '/' cs
  have hhead {α : Type} {xs : List α} (hx : xs ≠ []) (ys : List α) :
      (xs ++ ys).head? = xs.head? := by
    rw [List.head?_append, List.head?_eq_some_head hx, Option.some_or]
  unfold lead
  rw [List.splitOn_append_cons_self, hhead hc, hhead hsplit]

theorem filterMap_cuts_of_isBlank {piece : String} (hp : isBlank piece) :
    (cuts piece).filterMap part? = [] := by
  simp only [isBlank, Bool.or_eq_true, beq_iff_eq] at hp
  rcases hp with rfl | rfl <;> decide

theorem components_append (a b : String) :
    components (a ++ "/" ++ b) = components (a ++ "/") ++ (cuts b).filterMap part? := by
  have hslash : "/".toList = ['/'] := rfl
  have hlead : lead (a ++ "/" ++ b).toList = lead (a ++ "/").toList := by
    rw [String.toList_append, String.toList_append, hslash, List.append_assoc,
      List.singleton_append]
    by_cases ha : a.toList = []
    · rw [ha]
      simp [lead]
    · rw [lead_append ha, lead_append ha]
  have hempty : (cuts "").filterMap part? = [] := filterMap_cuts_of_isBlank rfl
  have hpieces : (cuts (a ++ "/")).filterMap part? =
      (cuts a).filterMap part? := by
    rw [← String.append_empty (s := a ++ "/"), cuts_append, List.filterMap_append, hempty,
      List.append_nil]
  unfold components
  rw [hlead, hpieces, cuts_append, List.filterMap_append, List.append_assoc]

theorem components_append_slash {a : String} (ha : a ≠ "") :
    components (a ++ "/") = components a := by
  have hslash : "/".toList = ['/'] := rfl
  have hne : a.toList ≠ [] := fun heq => ha (String.toList_eq_nil_iff.mp heq)
  have hlead : lead (a ++ "/").toList = lead a.toList := by
    rw [String.toList_append, hslash, lead_append hne]
  have hempty : (cuts "").filterMap part? = [] := filterMap_cuts_of_isBlank rfl
  unfold components
  rw [hlead, ← String.append_empty (s := a ++ "/"), cuts_append, List.filterMap_append, hempty,
    List.append_nil]

/-- A piece that is empty or a dot adds no component. -/
theorem Respells.components_eq {s' : String} (hr : Respells s s') :
    components s' = components s := by
  cases hr with
  | between a b hp =>
    rename_i piece
    have hne : a ++ "/" ++ piece ≠ "" := by simp
    rw [components_append _ b, components_append_slash hne, components_append a piece,
      filterMap_cuts_of_isBlank hp, List.append_nil, components_append a b]
  | behind ha hp =>
    rw [components_append, filterMap_cuts_of_isBlank hp, List.append_nil,
      components_append_slash ha]

end Components

section Push

variable {p folder : Path} {s name : String} {piece : String}

theorem toList_text (p : Path) : p.text.toList =
    (if p.isAbsolute then ['/'] else []) ++ ['/'].intercalate (p.pieces.map String.toList) := by
  have hslash : "/".toList = ['/'] := rfl
  unfold text
  rw [String.toList_append, String.toList_intercalate, hslash]
  split <;> rfl

/-- What is written down is read as the same path, if no piece holds a slash and the first one
cannot be taken for the root. -/
theorem ofText_text (hne : p.pieces ≠ []) (hs : ∀ piece ∈ p.pieces, '/' ∉ piece.toList)
    (hf : p.isAbsolute = false → p.pieces.head? ≠ some "") : ofText p.text = p := by
  obtain ⟨isAbsolute, pieces⟩ := p
  have hlists : pieces.map String.toList ≠ [] := by simpa using hne
  have hsplit : (['/'].intercalate (pieces.map String.toList)).splitOn '/' =
      pieces.map String.toList := by
    refine List.splitOn_intercalate '/' ?_ hlists
    intro cs hcs
    obtain ⟨piece, hpiece, rfl⟩ := List.mem_map.mp hcs
    exact hs piece hpiece
  have hback : (pieces.map String.toList).map String.ofList = pieces := by simp
  have htext := toList_text ⟨isAbsolute, pieces⟩
  rcases ofText_cases (text ⟨isAbsolute, pieces⟩) with ⟨rest, heq, hread⟩ | ⟨hhead, hread⟩
  · rw [hread]
    rw [heq] at htext
    cases isAbsolute with
    | true =>
      have hrest : rest = ['/'].intercalate (pieces.map String.toList) := (List.cons.inj htext).2
      rw [hrest, hsplit, hback]
    | false =>
      -- the first piece would have to be empty
      rw [if_neg Bool.false_ne_true, List.nil_append] at htext
      rw [← htext, Text.splitOn_self_cons] at hsplit
      cases pieces with
      | nil => exact absurd rfl hne
      | cons first more =>
        have hfirst : first.toList = [] := (List.cons.inj hsplit).1.symm
        have hempty : first = "" := String.toList_eq_nil_iff.mp hfirst
        exact (hf rfl (by rw [hempty]; rfl)).elim
  · rw [hread]
    cases isAbsolute with
    | true => exact (hhead (by rw [htext]; rfl)).elim
    | false =>
      rw [if_neg Bool.false_ne_true, List.nil_append] at htext
      rw [cuts, htext, hsplit, hback]

theorem notMem_of_mem_ofText (hp : piece ∈ (ofText s).pieces) : '/' ∉ piece.toList := by
  have hpieces (cs : List Char) (hp : piece ∈ (cs.splitOn '/').map String.ofList) :
      '/' ∉ piece.toList := by
    obtain ⟨split, hsplit, rfl⟩ := List.mem_map.mp hp
    rw [String.toList_ofList]
    exact Text.notMem_of_mem_splitOn hsplit
  rcases ofText_cases s with ⟨rest, -, hread⟩ | ⟨-, hread⟩ <;>
  · rw [hread] at hp
    exact hpieces _ hp

theorem pieces_ofText_of_head? (hr : (ofText s).isAbsolute = false)
    (hf : (ofText s).pieces.head? = some "") : (ofText s).pieces = [""] := by
  rcases ofText_cases s with ⟨rest, -, hread⟩ | ⟨hhead, hread⟩
  · rw [hread] at hr
    cases hr
  · rw [hread, cuts] at hf ⊢
    cases hs : s.toList with
    | nil => rfl
    | cons c rest =>
      have hc : c ≠ '/' := fun heq => hhead (by rw [hs, heq]; rfl)
      obtain ⟨piece, more, hsplit⟩ := Text.splitOn_cons_of_ne hc rest
      simp [hs, hsplit] at hf

theorem trim_pieces_cases (p : Path) : p.trim.pieces = [] ∨
    ∃ before piece, p.trim.pieces = before ++ [piece] ∧ piece ≠ "" := by
  have hdrop (pieces : List String) : Text.dropEnd isBlank pieces = [] ∨
      ∃ before piece, Text.dropEnd isBlank pieces = before ++ [piece] ∧ piece ≠ "" := by
    rcases Text.eq_nil_or_concat_dropEnd isBlank pieces with hnil | ⟨before, piece, hdrop, hb⟩
    · exact .inl hnil
    · refine .inr ⟨before, piece, hdrop, ?_⟩
      rintro rfl
      cases hb
  by_cases hd : p.IsDotted
  · obtain ⟨rest, rfl⟩ := hd
    right
    change ∃ before piece, "." :: Text.dropEnd isBlank rest = before ++ [piece] ∧ piece ≠ ""
    rcases hdrop rest with hnil | ⟨before, piece, heq, hne⟩
    · exact ⟨[], ".", by rw [hnil]; rfl, by decide⟩
    · exact ⟨"." :: before, piece, by rw [heq]; rfl, hne⟩
  · rw [trim_of_not_isDotted hd]
    exact hdrop p.pieces

theorem exists_text_eq (isAbsolute : Bool) (before : List String) (piece : String) :
    ∃ front, text ⟨isAbsolute, before ++ [piece]⟩ = front ++ piece := by
  have hone : [piece] ≠ [] := List.cons_ne_nil piece []
  unfold text
  by_cases hb : before = []
  · subst hb
    exact ⟨_, by rw [List.nil_append, String.intercalate_singleton]⟩
  · rw [String.intercalate_append_of_ne_nil hb hone, String.intercalate_singleton]
    exact ⟨_, (String.append_assoc ..).symm⟩

theorem text_join (hs : ∀ piece ∈ p.pieces, '/' ∉ piece.toList)
    (hp : p.pieces = [] ∨ ∃ before piece, p.pieces = before ++ [piece] ∧ piece ≠ "")
    (name : String) : (p.join name).text = push p.text name := by
  obtain ⟨isAbsolute, pieces⟩ := p
  rcases hp with rfl | ⟨before, piece, rfl, hne⟩
  · cases isAbsolute <;> simp [push, join, text]
  · have hname : [name] ≠ [] := List.cons_ne_nil name []
    have hbefore : before ++ [piece] ≠ [] := by simp
    have hjoin : (join ⟨isAbsolute, before ++ [piece]⟩ name).text =
        text ⟨isAbsolute, before ++ [piece]⟩ ++ "/" ++ name := by
      unfold join text
      rw [String.intercalate_append_of_ne_nil hbefore hname, String.intercalate_singleton]
      simp only [String.append_assoc]
    have hchars : piece.toList ≠ [] := fun h => hne (String.toList_eq_nil_iff.mp h)
    have hlast : (text ⟨isAbsolute, before ++ [piece]⟩).toList.getLast? =
        some (piece.toList.getLast hchars) := by
      obtain ⟨front, hfront⟩ := exists_text_eq isAbsolute before piece
      rw [hfront, String.toList_append, List.getLast?_append, List.getLast?_eq_some_getLast hchars,
        Option.some_or]
    have hslash : piece.toList.getLast hchars ≠ '/' := fun h =>
      hs piece (by simp) (h ▸ List.getLast_mem hchars)
    rw [hjoin, push, if_neg]
    rintro (hempty | hend)
    · rw [hempty] at hlast
      cases hlast
    · exact hslash (Option.some.inj (hlast.symm.trans hend))

/-- The folder and the name that a text is taken apart into stand for the same components when they
are put together again. -/
theorem components_push (hf : (ofText s).parent? = some folder)
    (hn : (ofText s).fileName? = some name) :
    components (push folder.text name) = components s := by
  obtain ⟨hname, pieces, htrim, hfolder⟩ := trim_of_parent? hf hn
  have hfirst : folder.pieces <+: (ofText s).trim.pieces := by
    rw [htrim, hfolder]
    exact (trim_isPrefix _).trans (List.prefix_append pieces [name])
  have hmem (piece : String) (hp : piece ∈ (ofText s).trim.pieces) : '/' ∉ piece.toList :=
    notMem_of_mem_ofText ((trim_isPrefix _).subset hp)
  have hjoin : (folder.join name).text = push folder.text name := by
    refine text_join (fun piece hp => hmem piece (hfirst.subset hp)) ?_ name
    rw [hfolder]
    exact trim_pieces_cases _
  have hread : ofText (folder.join name).text = folder.join name := by
    refine ofText_text (by simp [join]) ?_ ?_
    · intro piece hp
      rcases List.mem_append.mp hp with hp | hp
      · exact hmem piece (hfirst.subset hp)
      · refine hmem piece ?_
        rw [htrim]
        exact List.mem_append_right pieces hp
    · -- a relative text that begins with an empty piece is empty and has no name
      intro hrelative hhead
      cases hpieces : folder.pieces with
      | nil =>
        rw [join, hpieces] at hhead
        obtain rfl := Option.some.inj hhead
        cases hname
      | cons first more =>
        rw [join, hpieces] at hhead
        obtain rfl := Option.some.inj hhead
        obtain ⟨rest, hrest⟩ := hfirst.trans (trim_isPrefix _)
        have habsolute : (ofText s).isAbsolute = false := by
          rw [← hrelative, hfolder]
          exact (isAbsolute_trim ⟨(ofText s).isAbsolute, pieces⟩).symm
        have hone := pieces_ofText_of_head? habsolute (by rw [← hrest, hpieces]; rfl)
        have hparts : (ofText s).parts = [] := by
          rw [parts_of_not_isDotted, habsolute, hone]
          · rfl
          · rintro ⟨rest, hdot⟩
            simp [hdot] at hone
        have hlast := fileName?_eq_some_iff.mp hn
        rw [hparts] at hlast
        cases hlast
  rw [← hjoin, ← parts_ofText, hread, (splits hf hn).join, parts_ofText]

end Push

end Path

namespace FileTree

variable {t : FileTree} {cwd place : Place}

def walk (here : Place) : Path.Part → Place
  | .root => []
  | .here => here
  | .up => here.dropLast
  | .name s => here ++ [s]

theorem eq_walk_of_follow {here : Place} {part : Path.Part} (hf : t.follow here part = .ok place) :
    place = walk here part := by
  unfold follow at hf
  split at hf
  · cases hf
  · cases hf
  · cases part with
    | root | here | up =>
      cases hf
      rfl
    | name s =>
      by_cases hs : nameLimit < s.utf8ByteSize
      · simp [hs] at hf
      · simp only [hs, if_false] at hf
        cases hf
        rfl

theorem eq_foldl_walk {parts : List Path.Part} {here : Place}
    (hf : parts.foldlM t.follow here = .ok place) : place = parts.foldl walk here := by
  induction parts generalizing here with
  | nil =>
    cases hf
    rfl
  | cons part rest ih =>
    rw [List.foldlM_cons] at hf
    cases hnext : t.follow here part with
    | error e =>
      rw [hnext] at hf
      cases hf
    | ok next =>
      rw [hnext] at hf
      rw [List.foldl_cons, ← eq_walk_of_follow hnext]
      exact ih hf

/-- A file that is opened stands where the parts of its path lead to. -/
theorem eq_walk_of_openDeep {folder : Path} {name : String}
    (ho : (t.openDeep cwd folder name).1 = some place) :
    place = (folder.join name).parts.foldl walk cwd := by
  have hopened {t : FileTree} {opened : Place × FileTree}
      (h : t.openFile cwd (folder.join name) = .ok opened) :
      opened.1 = (folder.join name).parts.foldl walk cwd := by
    obtain ⟨hreach, -⟩ := reach_of_openFile h
    obtain ⟨-, -, -, hfold⟩ := reach_eq_ok_iff.mp hreach
    exact eq_foldl_walk hfold
  simp only [openDeep] at ho
  split at ho
  next hopen =>
    cases ho
    exact hopened hopen
  next =>
    split at ho
    next => cases ho
    next =>
      split at ho
      next hopen =>
        cases ho
        exact hopened hopen
      next => cases ho

end FileTree

namespace Log.Appender

open Handoff.Path

variable {cwd : Place} {t : FileTree} {s : String}

theorem locate_eq_noParent_iff :
    locate s = .error (.noParent s) ↔ components s = [] ∨ components s = [.root] := by
  rw [← parts_ofText, ← parent?_eq_none_iff]
  unfold locate
  cases (ofText s).parent? with
  | none => simp
  | some folder => cases (ofText s).fileName? <;> simp

theorem locate_eq_error {e : AppenderError} (hl : locate s = .error e) :
    e = .noParent s ∨ e = .noFileName s := by
  unfold locate at hl
  split at hl
  · cases hl
    exact .inl rfl
  · split at hl <;> cases hl
    exact .inr rfl

theorem create_eq_failed_iff {e : AppenderError} :
    (create cwd s t).1 = .failed e ↔ locate s = .error e := by
  cases hl : locate s with
  | error e' =>
    rw [create_of_error hl]
    simp
  | ok found =>
    rw [create_of_ok hl]
    cases (t.openDeep cwd found.1 found.2).1 <;> simp

/-- How an appender takes a path: it sees nothing of it but its components. -/
structure Takes (cwd : Place) (t : FileTree) (s : String) : Prop where
  /-- The path is refused just where its last component is no name; -/
  refused_iff : (∃ e, (create cwd s t).1 = .failed e) ↔
    components s = [] ∨ ∃ x ∈ (components s).getLast?, x = .root ∨ x = .here ∨ x = .up
  noParent_iff : (create cwd s t).1 = .failed (.noParent s) ↔
    components s = [] ∨ components s = [.root]
  /-- the error is one of two then, and no file is touched. -/
  refused : ∀ e, (create cwd s t).1 = .failed e →
    (e = .noParent s ∨ e = .noFileName s) ∧ (create cwd s t).2 = t
  /-- Else a folder and a name are found that stand for the same components together, -/
  found : (∀ e, (create cwd s t).1 ≠ .failed e) → ∃ folder name,
    locate s = .ok (folder, name) ∧ (components s).getLast? = some (.name name) ∧
      components (push folder.text name) = components s
  /-- and the file that is opened hangs on these and the working folder alone. -/
  opened : ∀ place, (create cwd s t).1 = .done place →
    place = (components s).foldl FileTree.walk cwd
  respelled : ∀ s', Respells s s' → components s' = components s

/-- **The appender accepts the paths that end in a file name and opens that file**, however they are
written. -/
theorem takes_text (cwd : Place) (t : FileTree) (s : String) : Takes cwd t s where
  refused_iff := by
    have hrefused : (∃ e, (create cwd s t).1 = .failed e) ↔ (ofText s).fileName? = none := by
      simp only [create_eq_failed_iff, exists_locate_eq_error_iff]
    rw [hrefused, Path.fileName?, parts_ofText, ← List.getLast?_eq_none_iff]
    cases hlast : (components s).getLast? with
    | none => simp
    | some x => cases x <;> simp
  noParent_iff := create_eq_failed_iff.trans locate_eq_noParent_iff
  refused e he := by
    have hl := create_eq_failed_iff.mp he
    rw [create_of_error hl]
    exact ⟨locate_eq_error hl, rfl⟩
  found hc := by
    cases hl : locate s with
    | error e => exact (hc e (create_eq_failed_iff.mpr hl)).elim
    | ok found =>
      obtain ⟨folder, name⟩ := found
      obtain ⟨hf, hn⟩ := locate_eq_ok hl
      refine ⟨folder, name, rfl, ?_, components_push hf hn⟩
      rw [← parts_ofText]
      exact fileName?_eq_some_iff.mp hn
  opened place hp := by
    cases hl : locate s with
    | error e =>
      rw [create_of_error hl] at hp
      cases hp
    | ok found =>
      obtain ⟨folder, name⟩ := found
      obtain ⟨hf, hn⟩ := locate_eq_ok hl
      rw [create_of_ok hl] at hp
      have hopen : (t.openDeep cwd folder name).1 = some place := by
        split at hp <;> cases hp
        assumption
      rw [FileTree.eq_walk_of_openDeep hopen, (splits hf hn).join, parts_ofText]
  respelled _ hr := hr.components_eq

/-- Slashes and dots that do not count, and two paths that look like names and are none. -/
example : components ".//a/./b/..//c/." = [.here, .name "a", .name "b", .up, .name "c"] ∧
    components "//..//." = [.root, .up] ∧ components "/./" = [.root] := by decide

end Log.Appender

end Handoff
