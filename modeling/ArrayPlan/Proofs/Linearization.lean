import ArrayPlan.Proofs.Contents
import ArrayPlan.Proofs.WordStrides

/-!
Linearization. The strides of a layout number the elements of an array without a gap, and the place that a buffer finds,
one axis after the other, is the number that the row-major strides give. If the elements can be counted in words, no word
overflows on the way, neither from the last axis to the first nor from the first to the last.
-/

namespace ArrayPlan

theorem inBox_iff_zip {index : List Int} {lengths : List Nat} : InBox index lengths ↔
    index.length = lengths.length ∧ ∀ axis ∈ index.zip lengths, 0 ≤ axis.1 ∧ axis.1 < (axis.2 : Int) := by
  induction index generalizing lengths with
  | nil => cases lengths <;> simp [InBox]
  | cons i index ih =>
    cases lengths with
    | nil => simp [InBox]
    | cons n lengths =>
      simp only [InBox, ih, List.length_cons, List.zip_cons_cons, List.forall_mem_cons, Nat.succ_inj]
      tauto

namespace Layout

theorem bijOn_distance (layout : Layout) (lengths : List Nat) :
    Set.BijOn (fun index => distance index (layout.strides lengths)) {index | InBox index lengths}
      {place | place < elementCount lengths} := by
  have hplace : Set.BijOn (layout.place lengths) {index | InBox index lengths} {place | place < elementCount lengths} :=
    Set.InvOn.bijOn ⟨fun _ => indexAt_place, fun _ => place_indexAt⟩ (fun _ => place_lt) fun _ => inBox_indexAt
  exact hplace.congr fun index hindex => (layout.distance_strides hindex.length_eq).symm

theorem columnMajor_strides_eq_reverse (lengths : List Nat) :
    columnMajor.strides lengths = (rowMajor.strides lengths.reverse).reverse := by
  rw [strides, strides, ← reverse_columnStrides_reverse, List.reverse_reverse, List.reverse_reverse]

end Layout

namespace Word

def add? (a b : Nat) : Option Nat :=
  if a + b < modulus then some (a + b) else none

/-- The place of an index as it is computed in words. An answer is found unless a product or a sum on the way is no word. -/
def placeFrom? (start : Nat) : List Int → List Nat → Option (Option Nat)
  | i :: index, n :: lengths =>
    if i < 0 ∨ (n : Int) ≤ i then some none
    else (mul? start n).bind fun row => (add? row i.toNat).bind fun place => placeFrom? place index lengths
  | _, _ => some (some start)

theorem placeFrom?_eq {lengths : List Nat} (hpos : ∀ n ∈ lengths, 0 < n) {start : Nat}
    (hword : (start + 1) * elementCount lengths < modulus) (index : List Int) :
    placeFrom? start index lengths = some (offsetFrom? start index lengths) := by
  induction lengths generalizing start index with
  | nil => cases index <;> rfl
  | cons n lengths ih =>
    cases index with
    | nil => rfl
    | cons i index =>
      rw [placeFrom?, offsetFrom?]
      by_cases hout : i < 0 ∨ (n : Int) ≤ i
      · rw [if_pos hout, if_pos hout]
      · obtain ⟨_, hpos⟩ := List.forall_mem_cons.1 hpos
        have hrow : start * n + i.toNat + 1 ≤ (start + 1) * n := by
          rw [Nat.add_mul, Nat.one_mul]
          omega
        have hnext : (start * n + i.toNat + 1) * elementCount lengths < modulus := by
          rw [elementCount, ← Nat.mul_assoc] at hword
          exact Nat.lt_of_le_of_lt (Nat.mul_le_mul_right _ hrow) hword
        have hplace : start * n + i.toNat + 1 < modulus :=
          Nat.lt_of_le_of_lt (Nat.le_mul_of_pos_right _ (elementCount_pos hpos)) hnext
        rw [if_neg hout, if_neg hout, mul?_eq_some.2 ⟨rfl, by omega⟩, Option.bind_some, add?, if_pos (by omega),
          Option.bind_some, ih hpos hnext]

end Word

namespace Buffer

variable {α : Type}

theorem offset_eq_ok_iff {b : Buffer α} {index : List Int} {place : Nat} : b.offset index = .ok place ↔
    InBox index b.lengths ∧ place = Layout.distance index (Layout.rowMajor.strides b.lengths) := by
  constructor
  · intro h
    have hindex := offset_ok_iff.1 ⟨place, h⟩
    rw [offset, if_pos hindex.length_eq, offsetFrom?_eq_place hindex, Nat.zero_mul, Nat.zero_add] at h
    exact ⟨hindex, (Except.ok.inj h).symm.trans (Layout.rowMajor.distance_strides hindex.length_eq).symm⟩
  · rintro ⟨hindex, rfl⟩
    rw [offset, if_pos hindex.length_eq, offsetFrom?_eq_place hindex, Nat.zero_mul, Nat.zero_add,
      Layout.distance_strides _ hindex.length_eq]

end Buffer

namespace Layout

/-- In both layouts the strides number the elements of an array one by one, and a buffer finds the number that the
row-major strides give, exactly for an index of the right rank with each position in range. Column by column is row by row
from the other end. Where the elements can be counted in words, strides and places are computed in words. -/
theorem linearizes {lengths : List Nat} (hpos : ∀ n ∈ lengths, 0 < n) (hword : elementCount lengths < Word.modulus) :
    (∀ layout : Layout, layout.wordStrides? lengths = some (layout.strides lengths) ∧
      Set.BijOn (fun index => distance index (layout.strides lengths)) {index | InBox index lengths}
        {place | place < elementCount lengths}) ∧
    (∀ (α : Type) (b : Buffer α), b.lengths = lengths → ∀ index : List Int,
      Word.placeFrom? 0 index lengths = some (offsetFrom? 0 index lengths) ∧
      ∀ place, b.offset index = .ok place ↔
        (index.length = lengths.length ∧ ∀ axis ∈ index.zip lengths, 0 ≤ axis.1 ∧ axis.1 < (axis.2 : Int)) ∧
          place = distance index (rowMajor.strides lengths)) ∧
    columnMajor.strides lengths = (rowMajor.strides lengths.reverse).reverse := by
  refine ⟨fun layout => ⟨layout.wordStrides?_eq hpos hword, layout.bijOn_distance lengths⟩, ?_,
    columnMajor_strides_eq_reverse lengths⟩
  rintro α b rfl index
  refine ⟨Word.placeFrom?_eq hpos (by rwa [Nat.zero_add, Nat.one_mul]) index, fun place => ?_⟩
  rw [Buffer.offset_eq_ok_iff, inBox_iff_zip]

theorem linearizes_long :
    elementCount [4294967295, 1, 4294967296] < Word.modulus ∧
    Set.BijOn (fun index => distance index [1, 4294967295, 4294967295])
      {index | InBox index [4294967295, 1, 4294967296]} {place | place < 18446744069414584320} ∧
    (Buffer.zeros [4294967295, 1, 4294967296] : Buffer Nat).offset [4294967294, 0, 4294967295] =
      .ok 18446744069414584319 ∧
    ∀ place, (Buffer.zeros [4294967295, 1, 4294967296] : Buffer Nat).offset [0, 1, 0] ≠ .ok place := by
  have hpos : ∀ n ∈ [4294967295, 1, 4294967296], 0 < n := by decide
  have hword : elementCount [4294967295, 1, 4294967296] < Word.modulus := by decide
  obtain ⟨hnumbers, hoffset, -⟩ := linearizes hpos hword
  refine ⟨hword, (hnumbers .columnMajor).2, ?_, fun place hplace => ?_⟩
  · exact ((hoffset Nat (.zeros _) rfl [4294967294, 0, 4294967295]).2 _).2 (by decide)
  · obtain ⟨hinside, -⟩ := ((hoffset Nat (.zeros _) rfl [0, 1, 0]).2 place).1 hplace
    exact absurd hinside (by decide)

end Layout

end ArrayPlan
