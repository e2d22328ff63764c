import ArrayPlan.Layout

/-!
Boxes of indices. The indices of an array are lists of positions, one below each axis length; in
lexicographic order the last axis varies fastest.
-/

namespace ArrayPlan

def InBox : List Int → List Nat → Prop
  | [], [] => True
  | i :: index, n :: lengths => (0 ≤ i ∧ i < (n : Int)) ∧ InBox index lengths
  | _, _ => False

def boxPoints : List Nat → List (List Int)
  | [] => [[]]
  | n :: lengths => (List.range n).flatMap fun (i : Nat) => (boxPoints lengths).map ((i : Int) :: ·)

instance decidableInBox : (index : List Int) → (lengths : List Nat) → Decidable (InBox index lengths)
  | [], [] => isTrue trivial
  | i :: index, n :: lengths =>
    have := decidableInBox index lengths
    inferInstanceAs (Decidable ((0 ≤ i ∧ i < (n : Int)) ∧ InBox index lengths))
  | [], _ :: _ => isFalse id
  | _ :: _, [] => isFalse id

theorem InBox.length_eq {index : List Int} {lengths : List Nat} (h : InBox index lengths) :
    index.length = lengths.length := by
  induction lengths generalizing index with
  | nil =>
    cases index with
    | nil => rfl
    | cons i index => cases h
  | cons n lengths ih =>
    cases index with
    | nil => cases h
    | cons i index => exact congrArg (· + 1) (ih h.2)

theorem mem_boxPoints {index : List Int} {lengths : List Nat} :
    index ∈ boxPoints lengths ↔ InBox index lengths := by
  induction lengths generalizing index with
  | nil =>
    cases index with
    | nil => simp [boxPoints, InBox]
    | cons i index => simp [boxPoints, InBox]
  | cons n lengths ih =>
    simp only [boxPoints, List.mem_flatMap, List.mem_map, List.mem_range]
    constructor
    · rintro ⟨k, hk, rest, hrest, rfl⟩
      exact ⟨by omega, ih.1 hrest⟩
    · intro h
      cases index with
      | nil => cases h
      | cons i index =>
        refine ⟨i.toNat, by have := h.1; omega, index, ih.2 h.2, ?_⟩
        rw [Int.toNat_of_nonneg h.1.1]

end ArrayPlan
