import Handoff.Channel
import Handoff.Proofs.Tally
import Handoff.Script

/-! Sources as owners of records: those that they made, those that they hold, and those that they
give away. -/
namespace Handoff

namespace Record

/-- How often the record with a serial number occurs. -/
def copies (s : Nat) (rs : List Record) : Nat := rs.countP (·.serial == s)

@[simp] theorem copies_nil (s : Nat) : copies s [] = 0 := rfl

@[simp] theorem copies_cons (s : Nat) (r : Record) (rs : List Record) :
    copies s (r :: rs) = copies s rs + if r.serial = s then 1 else 0 := by
  unfold copies
  rw [List.countP_cons]
  simp

@[simp] theorem copies_append (s : Nat) (rs more : List Record) :
    copies s (rs ++ more) = copies s rs + copies s more := List.countP_append

theorem copies_erase {rs : List Record} {r : Record} (hr : r ∈ rs) (s : Nat) :
    copies s rs = copies s (r :: rs.erase r) :=
  (List.perm_cons_erase hr).countP_eq fun x : Record => x.serial == s

theorem copies_flatMap_eq_zero_iff {α : Type} {s : Nat} {f : α → List Record} {as : List α} :
    copies s (as.flatMap f) = 0 ↔ ∀ a ∈ as, copies s (f a) = 0 := by
  induction as with
  | nil => simp
  | cons a rest ih =>
    rw [List.flatMap_cons, copies_append, Nat.add_eq_zero_iff, ih, List.forall_mem_cons]

/-- What is there once over several places is in one of them, once. -/
theorem exists_one_of_copies_flatMap {α : Type} {s : Nat} {f : α → List Record} {as : List α}
    (hs : copies s (as.flatMap f) = 1) :
    ∃ a ∈ as, copies s (f a) = 1 ∧ ∀ b ∈ as, b ≠ a → copies s (f b) = 0 := by
  induction as with
  | nil => cases hs
  | cons c rest ih =>
    rw [List.flatMap_cons, copies_append] at hs
    by_cases hc : copies s (f c) = 0
    · obtain ⟨a, ha, hone, hothers⟩ := ih (by omega)
      refine ⟨a, List.mem_cons_of_mem c ha, hone, fun b hb hne => ?_⟩
      rcases List.mem_cons.mp hb with rfl | hb
      · exact hc
      · exact hothers b hb hne
    · have hrest : copies s (rest.flatMap f) = 0 := by omega
      rw [copies_flatMap_eq_zero_iff] at hrest
      refine ⟨c, List.mem_cons_self, by omega, fun b hb hne => ?_⟩
      rcases List.mem_cons.mp hb with rfl | hb
      · exact (hne rfl).elim
      · exact hrest b hb

end Record

open Record (copies)

namespace Event

@[simp] def released? : Event → Option Record
  | released r => some r
  | _ => none

/-- The records that were released, in order. -/
def releases (es : List Event) : List Record := es.filterMap released?

@[simp] theorem releases_nil : releases [] = [] := rfl

@[simp] theorem releases_append (es more : List Event) :
    releases (es ++ more) = releases es ++ releases more := List.filterMap_append

@[simp] theorem releases_cons (e : Event) (es : List Event) :
    releases (e :: es) = e.released?.toList ++ releases es := by
  unfold releases
  rw [List.filterMap_cons]
  cases e.released? <;> rfl

@[simp] theorem releases_releasing (rs : List Record) : releases (releasing rs) = rs := by
  unfold releases releasing
  rw [List.filterMap_map]
  exact List.filterMap_some

end Event

/-- Whether a serial number was given out while their count went from one number to another. -/
def born (made made' s : Nat) : Nat := if made ≤ s ∧ s < made' then 1 else 0

@[simp] theorem born_self (made s : Nat) : born made made s = 0 := by
  unfold born
  split <;> omega

theorem born_succ (made s : Nat) : born made (made + 1) s = if made = s then 1 else 0 := by
  unfold born
  split <;> split <;> omega

theorem born_add {made made' made'' : Nat} (h : made ≤ made') (h' : made' ≤ made'') (s : Nat) :
    born made made' s + born made' made'' s = born made made'' s := by
  unfold born
  split <;> split <;> split <;> omega

/-- Nothing but the records made meanwhile was added to a collection, and nothing was lost from
it. -/
structure Conserved (made made' : Nat) (rs rs' : List Record) : Prop where
  le : made ≤ made'
  copies : ∀ s, copies s rs + born made made' s = copies s rs'

namespace Conserved

variable {made made' made'' : Nat} {rs rs' rs'' : List Record}

theorem of_copies_eq (h : ∀ s, Record.copies s rs = Record.copies s rs') :
    Conserved made made rs rs' where
  le := Nat.le_refl made
  copies s := by simpa using h s

theorem trans (h : Conserved made made' rs rs') (h' : Conserved made' made'' rs' rs'') :
    Conserved made made'' rs rs'' where
  le := Nat.le_trans h.le h'.le
  copies s := by
    have hborn := born_add h.le h'.le s
    have hrs := h.copies s
    have hrs' := h'.copies s
    omega

theorem within {xs xs' : List Record} (h : Conserved made made' rs rs')
    (hx : ∀ s, Record.copies s xs + Record.copies s rs' =
      Record.copies s rs + Record.copies s xs') : Conserved made made' xs xs' where
  le := h.le
  copies s := by
    have hrs := h.copies s
    have hxs := hx s
    omega

theorem copies_le_one (h : Conserved made made' [] rs) (s : Nat) : Record.copies s rs ≤ 1 := by
  have hrs := h.copies s
  rw [Record.copies_nil, Nat.zero_add] at hrs
  rw [← hrs, born]
  split <;> omega

theorem of_make {r : Record} (hr : r.serial = made) (h : ∀ s,
    Record.copies s rs + Record.copies s [r] = Record.copies s rs') :
    Conserved made (made + 1) rs rs' where
  le := Nat.le_succ made
  copies s := by
    rw [born_succ, ← h s]
    simp [hr]

end Conserved

/-- A source as an owner: a record is in it, is handed out or is let go of, and publishers make
records and may send them to it. -/
class Stock (σ : Type) [Feed σ] where
  made : σ → Nat
  held : σ → List Record
  /-- The fetching end is gone. -/
  IsSpent : σ → Prop
  make : UInt32 → σ → Record × σ
  /-- Takes in a record from a publisher, who has looked for a stop before, or hands it back. -/
  send? : Nat → Record → σ → Option σ
  conserved_enter (f : σ) :
    Conserved (made f) (made (Feed.enter f).1) (held f)
      (held (Feed.enter f).1 ++ ((Feed.enter f).2.1.bind Outcome.record?).toList ++
        (Feed.enter f).2.2)
  conserved_receive? {f f' : σ} {o : Outcome} {rs : List Record} :
    Feed.receive? f = some (f', o, rs) →
      Conserved (made f) (made f') (held f) (held f' ++ o.record?.toList ++ rs)
  conserved_raise (f : σ) :
    Conserved (made f) (made (Feed.raise f)) (held f) (held (Feed.raise f))
  conserved_wake (f : σ) : Conserved (made f) (made (Feed.wake f)) (held f) (held (Feed.wake f))
  conserved_publish (x : Publishing) (f : σ) :
    Conserved (made f) (made (Feed.publish x f).1) (held f)
      (held (Feed.publish x f).1 ++ Event.releases (Feed.publish x f).2)
  conserved_retire (f : σ) :
    Conserved (made f) (made (Feed.retire f).1) (held f)
      (held (Feed.retire f).1 ++ (Feed.retire f).2)
  conserved_make (id : UInt32) (f : σ) :
    Conserved (made f) (made (make id f).2) (held f) (held (make id f).2 ++ [(make id f).1])
  conserved_send? {p : Nat} {r : Record} {f f' : σ} :
    send? p r f = some f' → Conserved (made f) (made f') (held f ++ [r]) (held f')
  held_of_isSpent {f : σ} : IsSpent f → held f = []
  isSpent_retire (f : σ) : IsSpent (Feed.retire f).1
  isSpent_raise {f : σ} : IsSpent f → IsSpent (Feed.raise f)
  isSpent_wake {f : σ} : IsSpent f → IsSpent (Feed.wake f)
  isSpent_publish (x : Publishing) {f : σ} : IsSpent f → IsSpent (Feed.publish x f).1
  isSpent_make (id : UInt32) {f : σ} : IsSpent f → IsSpent (make id f).2
  isSpent_send? {p : Nat} {r : Record} {f f' : σ} :
    send? p r f = some f' → IsSpent f → IsSpent f'

namespace Channel

@[simp] theorem made_send (c : Channel) (m : Message) : (c.send m).made = c.made := by
  unfold send
  split <;> rfl

theorem records_send (c : Channel) (m : Message) :
    (c.send m).records = if c.isOpen then c.records ++ m.record?.toList else c.records := by
  unfold send
  split
  · cases hm : m.record? <;> simp [records, hm]
  · rfl

def make (id : UInt32) (c : Channel) : Record × Channel :=
  (⟨id, c.made⟩, { c with made := c.made + 1 })

def send? (p : Nat) (r : Record) (c : Channel) : Option Channel :=
  if c.isAlive p && c.isOpen then some (c.send (.record r)) else none

structure IsSpent (c : Channel) : Prop where
  isOpen : c.isOpen = false
  messages : c.messages = []

theorem IsSpent.send {c : Channel} (hc : c.IsSpent) (m : Message) : c.send m = c := by
  unfold Channel.send
  simp [hc.isOpen]

theorem conserved_close (c : Channel) :
    Conserved c.made c.close.1.made c.records (c.close.1.records ++ c.close.2) := by
  apply Conserved.of_copies_eq
  simp [close, records]

/-- Who publishes makes a record and sends it, and releases it if it comes back. -/
theorem publish_eq_send? {c : Channel} {p : Nat} (hp : c.isAlive p) (id : UInt32) :
    c.publish (.publish p id) =
      if c.isStopped then
        ((c.make id).2, [.rejected (c.make id).1, .released (c.make id).1])
      else match send? p (c.make id).1 (c.make id).2 with
        | some d => (d, [.published (c.make id).1])
        | none => ((c.make id).2, [.rejected (c.make id).1, .released (c.make id).1]) := by
  cases hs : c.isStopped with
  | true => simp [publish, hp, accepts, hs, make]
  | false =>
    cases ho : c.isOpen with
    | true =>
      have hsend : send? p (c.make id).1 (c.make id).2 =
          some ((c.make id).2.send (.record (c.make id).1)) := by
        have ha : ((c.make id).2.isAlive p && (c.make id).2.isOpen) = true := by
          change (c.isAlive p && c.isOpen) = true
          rw [hp, ho]
          rfl
        rw [send?, if_pos ha]
      rw [hsend]
      simp [publish, hp, accepts, hs, ho, make]
    | false => simp [publish, hp, accepts, hs, ho, make, send?]

theorem conserved_publish (x : Publishing) (c : Channel) :
    Conserved c.made (c.publish x).1.made c.records
      ((c.publish x).1.records ++ Event.releases (c.publish x).2) := by
  have hsame {d : Channel} {es : List Event} (hmade : d.made = c.made)
      (hrecords : d.records = c.records) (hes : Event.releases es = []) :
      Conserved c.made d.made c.records (d.records ++ Event.releases es) := by
    rw [hmade, hrecords, hes, List.append_nil]
    exact .of_copies_eq fun _ => rfl
  cases x with
  | publish p id =>
    simp only [publish]
    split
    · split
      next ha =>
        have ho : c.isOpen = true := by
          simp only [accepts, Bool.and_eq_true] at ha
          exact ha.2
        have hrecords : (({ c with made := c.made + 1 } : Channel).send
            (.record ⟨id, c.made⟩)).records = c.records ++ [⟨id, c.made⟩] := by
          rw [records_send, if_pos ho]
          rfl
        rw [made_send, hrecords]
        apply Conserved.of_make (r := ⟨id, c.made⟩) rfl
        simp
      next =>
        apply Conserved.of_make (r := ⟨id, c.made⟩) rfl
        simp [records]
    · exact hsame rfl rfl rfl
  | fail p report =>
    simp only [publish]
    split
    · refine hsame (made_send c _) ?_ rfl
      rw [records_send]
      simp [Message.record?]
    · exact hsame rfl rfl rfl
  | isStopped p | clone p | finish p =>
    simp only [publish]
    split <;> exact hsame rfl rfl rfl
  | unknown => exact hsame rfl rfl rfl

theorem IsSpent.publish {c : Channel} (hc : c.IsSpent) (x : Publishing) :
    (c.publish x).1.IsSpent := by
  cases x with
  | publish p id =>
    simp only [Channel.publish]
    split
    · rw [show c.accepts = false by simp [accepts, hc.isOpen]]
      exact ⟨hc.isOpen, hc.messages⟩
    · exact hc
  | fail p report =>
    simp only [Channel.publish]
    split
    · rw [hc.send]
      exact hc
    · exact hc
  | isStopped p | clone p | finish p =>
    simp only [Channel.publish]
    split
    · exact ⟨hc.isOpen, hc.messages⟩
    · exact hc
  | unknown => exact hc

theorem conserved_receive? {c d : Channel} {o : Outcome} {rs : List Record}
    (h : c.receive? = some (d, o, rs)) :
    Conserved c.made d.made c.records (d.records ++ o.record?.toList ++ rs) := by
  unfold receive? at h
  split at h
  next r rest hm =>
    cases h
    apply Conserved.of_copies_eq
    intro s
    simp [records, hm, Message.record?]
  next report rest hm =>
    cases h
    apply Conserved.of_copies_eq
    simp [records, hm, Message.record?, List.filterMap_cons]
  next rest hm =>
    cases h
    apply Conserved.of_copies_eq
    simp [records, hm, Message.record?, List.filterMap_cons]
  next hm =>
    split at h
    · cases h
    · cases h
      apply Conserved.of_copies_eq
      simp [records]

instance : Stock Channel where
  made := made
  held := records
  IsSpent := IsSpent
  make := make
  send? := send?
  conserved_enter c := by
    change Conserved c.made c.enter.1.made c.records (c.enter.1.records ++
      (c.enter.2.1.bind Outcome.record?).toList ++ c.enter.2.2)
    unfold enter
    split
    · simpa [finish] using c.conserved_close
    · apply Conserved.of_copies_eq
      simp
  conserved_receive? := conserved_receive?
  conserved_raise c := .of_copies_eq fun _ => rfl
  conserved_wake c := by
    change Conserved c.made c.wake.made c.records c.wake.records
    have hsame : c.wake.made = c.made ∧ c.wake.records = c.records := by
      unfold wake
      split
      · rw [made_send, records_send]
        simp [Message.record?]
      · exact ⟨rfl, rfl⟩
    rw [hsame.1, hsame.2]
    exact .of_copies_eq fun _ => rfl
  conserved_publish := conserved_publish
  conserved_retire := conserved_close
  conserved_make id c := .of_make (r := ⟨id, c.made⟩) rfl fun s => by simp [make, records]
  conserved_send? {p r c d} h := by
    unfold send? at h
    split at h
    next ha =>
      cases h
      have ho : c.isOpen = true := by
        simp only [Bool.and_eq_true] at ha
        exact ha.2
      rw [made_send, records_send, ho]
      exact .of_copies_eq fun _ => rfl
    next => cases h
  held_of_isSpent h := by simp [records, h.messages]
  isSpent_retire c := ⟨rfl, rfl⟩
  isSpent_raise h := ⟨h.isOpen, h.messages⟩
  isSpent_wake {c} h := by
    change c.wake.IsSpent
    unfold wake
    rw [h.send]
    split <;> exact h
  isSpent_publish x _ h := h.publish x
  isSpent_make id _ h := ⟨h.isOpen, h.messages⟩
  isSpent_send? {p r c d} h hc := by
    unfold send? at h
    simp [hc.isOpen] at h

end Channel

namespace Script

/-- Nothing but a yield makes a record, and what it makes is the answer. -/
theorem conserved_yield (s : Script) (id : UInt32) :
    Conserved s.made (s.yield id).1.made [] (s.yield id).2.record?.toList := by
  unfold yield
  split
  · exact .of_copies_eq fun _ => rfl
  · exact .of_make (r := ⟨id, s.made⟩) rfl fun _ => by simp

theorem conserved_play (s : Script) :
    Conserved s.made s.play.1.made [] s.play.2.record?.toList := by
  unfold play
  split
  · exact .of_copies_eq fun _ => rfl
  · split
    · unfold playTail
      split
      · exact .of_copies_eq fun _ => rfl
      · exact s.conserved_yield s.next
    next id rest _ => exact conserved_yield { s with steps := rest } id
    all_goals exact .of_copies_eq fun _ => rfl

/-- A script holds no records: it makes each when it is asked for it. -/
instance : Stock Script where
  made := made
  held _ := []
  IsSpent _ := True
  make id s := (⟨id, s.made⟩, { s with made := s.made + 1 })
  send? _ _ _ := none
  conserved_enter _ := .of_copies_eq fun _ => rfl
  conserved_receive? {s _ _ _} h := by
    cases h
    simpa using s.conserved_play
  conserved_raise _ := .of_copies_eq fun _ => rfl
  conserved_wake _ := .of_copies_eq fun _ => rfl
  conserved_publish _ _ := .of_copies_eq fun _ => rfl
  conserved_retire _ := .of_copies_eq fun _ => rfl
  conserved_make id s := .of_make (r := ⟨id, s.made⟩) rfl fun _ => by simp
  conserved_send? h := by cases h
  held_of_isSpent _ := rfl
  isSpent_retire _ := trivial
  isSpent_raise _ := trivial
  isSpent_wake _ := trivial
  isSpent_publish _ _ _ := trivial
  isSpent_make _ _ _ := trivial
  isSpent_send? h := by cases h

end Script

end Handoff
