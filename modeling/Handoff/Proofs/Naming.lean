import Handoff.Proofs.Refusal

/-! The name of a thread tells the prefix and the generation that it was made of, whatever the
prefix looks like: the generation is all that stands behind the last character that is no digit. -/
namespace Handoff

/-- Digits behind a character that is none can be told from what stands before it. -/
theorem Text.eq_of_append_digits {front front' ds ds' : List Char} {c : Char}
    (hc : c.isDigit = false) (hd : ∀ x ∈ ds, x.isDigit) (hd' : ∀ x ∈ ds', x.isDigit)
    (heq : front ++ c :: ds = front' ++ c :: ds') : front = front' ∧ ds = ds' := by
  -- of two fronts that differ, the longer one would end among the digits
  have hlonger {more ds ds' : List Char} (hd : ∀ x ∈ ds, x.isDigit)
      (h : c :: ds = more ++ c :: ds') : more = [] ∧ ds = ds' := by
    cases more with
    | nil => exact ⟨rfl, (List.cons.inj h).2⟩
    | cons y more =>
      have hrest : ds = more ++ c :: ds' := (List.cons.inj h).2
      have hmem : c ∈ ds := by
        rw [hrest]
        exact List.mem_append_right more List.mem_cons_self
      rw [hd c hmem] at hc
      cases hc
  rcases List.append_eq_append_iff.mp heq with ⟨more, hfront, hrest⟩ | ⟨more, hfront, hrest⟩
  · obtain ⟨rfl, hdigits⟩ := hlonger hd hrest
    exact ⟨by rw [hfront, List.append_nil], hdigits⟩
  · obtain ⟨rfl, hdigits⟩ := hlonger hd' hrest
    exact ⟨by rw [hfront, List.append_nil], hdigits.symm⟩

namespace Config

variable {c d : Config} {g h : UInt32}

theorem toList_threadName (c : Config) (g : UInt32) : (c.threadName g).toList =
    (c.namePrefix.toList ++ ['-', 'g', 'e', 'n']) ++ '-' :: (toString g.toNat).toList := by
  have hmark : generationMark.toList = ['-', 'g', 'e', 'n', '-'] := rfl
  rw [threadName, String.toList_append, String.toList_append, hmark]
  simp only [List.append_assoc, List.cons_append, List.nil_append]

theorem threadName_eq_iff :
    c.threadName g = d.threadName h ↔ c.namePrefix = d.namePrefix ∧ g = h := by
  constructor
  · intro heq
    have hlists := congrArg String.toList heq
    rw [toList_threadName, toList_threadName] at hlists
    obtain ⟨hfront, hdigits⟩ := Text.eq_of_append_digits (by decide)
      (fun _ => isDigit_of_mem_generation) (fun _ => isDigit_of_mem_generation) hlists
    have hfirst : c.namePrefix.toList = d.namePrefix.toList := List.append_cancel_right hfront
    rw [Nat.toString_eq_repr, Nat.toString_eq_repr, Nat.toList_repr, Nat.toList_repr] at hdigits
    have hnat : g.toNat = h.toNat := by
      calc g.toNat = Nat.ofDigitChars 10 (Nat.toDigits 10 g.toNat) 0 :=
            Nat.ofDigitChars_ten_toDigits.symm
        _ = Nat.ofDigitChars 10 (Nat.toDigits 10 h.toNat) 0 := by rw [hdigits]
        _ = h.toNat := Nat.ofDigitChars_ten_toDigits
    exact ⟨String.toList_inj.mp hfirst, UInt32.toNat_inj.mp hnat⟩
  · rintro ⟨hfirst, rfl⟩
    rw [threadName, threadName, hfirst]

/-- **A thread's name identifies its prefix and its generation**, so that two configs which agree on
one name agree on all of them. -/
theorem threadName_identifies :
    (∀ (c d : Config) (g h : UInt32),
      c.threadName g = d.threadName h ↔ c.namePrefix = d.namePrefix ∧ g = h) ∧
    ∀ c d : Config, (∃ g, c.threadName g = d.threadName g) ↔
      ∀ h, c.threadName h = d.threadName h := by
  refine ⟨fun c d g h => threadName_eq_iff, fun c d => ?_⟩
  simp only [threadName_eq_iff, and_true]
  exact ⟨fun ⟨_, hfirst⟩ _ => hfirst, fun hfirst => ⟨0, hfirst 0⟩⟩

/-- A prefix that looks like a name is a part of the name like any other. -/
example : threadName { namePrefix := "a-gen-1" } 2 = "a-gen-1-gen-2" ∧
    threadName { namePrefix := "a" } 12 ≠ threadName { namePrefix := "a-gen-1" } 2 := by decide

end Config

end Handoff
