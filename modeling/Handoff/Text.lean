/-! Cutting texts into pieces and off at their ends. -/
namespace Handoff.Text

/-- The pieces between separators; there is one more than there are separators. -/
def split (sep : Char) : List Char → List (List Char)
  | [] => [[]]
  | c :: rest =>
    if c = sep then [] :: split sep rest
    else match split sep rest with
      | [] => [[c]]
      | piece :: more => (c :: piece) :: more

theorem split_ne_nil (sep : Char) (cs : List Char) : split sep cs ≠ [] := by
  cases cs with
  | nil => simp [split]
  | cons c rest =>
    simp only [split]
    split
    · simp
    · split <;> simp

theorem intercalate_split (sep : Char) (cs : List Char) :
    [sep].intercalate (split sep cs) = cs := by
  induction cs with
  | nil => rfl
  | cons c rest ih =>
    simp only [split]
    cases h : split sep rest with
    | nil => exact absurd h (split_ne_nil sep rest)
    | cons piece more =>
      rw [h] at ih
      by_cases hc : c = sep
      · simp only [hc, if_true]
        rw [List.intercalate_cons_cons]
        simp [ih]
      · simp only [hc, if_false]
        cases more with
        | nil => simpa using ih
        | cons p ps =>
          rw [List.intercalate_cons_cons] at ih ⊢
          simp [← ih]

def pieces (sep : Char) (s : String) : List String := (split sep s.toList).map String.ofList

/-- Without the items at the end of which a predicate holds. -/
def dropEnd {α : Type} (p : α → Bool) : List α → List α
  | [] => []
  | a :: rest => match dropEnd p rest with
    | [] => if p a then [] else [a]
    | more => a :: more

def before? (pattern : List Char) : List Char → Option (List Char)
  | [] => if pattern.isEmpty then some [] else none
  | c :: rest =>
    if pattern.isPrefixOf (c :: rest) then some [] else (before? pattern rest).map (c :: ·)

def contains (pattern cs : List Char) : Bool := (before? pattern cs).isSome

end Handoff.Text
