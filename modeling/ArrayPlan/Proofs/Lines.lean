import ArrayPlan.Execution.Memory
import ArrayPlan.Proofs.Box

/-!
Elements in a line. A layout puts the elements of an array in a line: in a row-major one the places count
through the last axis first, in a column-major one through the first. Indices and places determine each other,
and both are what the strides give.
-/

namespace ArrayPlan

namespace Layout

def place : Layout → List Nat → List Int → Nat
  | rowMajor, _ :: lengths, i :: index => i.toNat * elementCount lengths + place rowMajor lengths index
  | columnMajor, n :: lengths, i :: index => i.toNat + n * place columnMajor lengths index
  | _, _, _ => 0

def indexAt : Layout → List Nat → Nat → List Int
  | _, [], _ => []
  | rowMajor, _ :: lengths, q =>
    ((q / elementCount lengths : Nat) : Int) :: indexAt rowMajor lengths (q % elementCount lengths)
  | columnMajor, n :: lengths, q => ((q % n : Nat) : Int) :: indexAt columnMajor lengths (q / n)

end Layout

theorem elementCount_pos {lengths : List Nat} (h : ∀ n ∈ lengths, 0 < n) : 0 < elementCount lengths := by
  induction lengths with
  | nil => exact Nat.one_pos
  | cons n lengths ih =>
    exact Nat.mul_pos (h n List.mem_cons_self) (ih fun k hk => h k (List.mem_cons_of_mem n hk))

theorem InBox.pos {index : List Int} {lengths : List Nat} (h : InBox index lengths) : ∀ n ∈ lengths, 0 < n := by
  induction lengths generalizing index with
  | nil => exact fun n hn => nomatch hn
  | cons m lengths ih =>
    cases index with
    | nil => exact h.elim
    | cons i index =>
      have hi := h.1
      intro n hn
      rcases List.mem_cons.1 hn with rfl | hn
      · omega
      · exact ih h.2 n hn

theorem InBox.le_elementCount {index : List Int} {lengths : List Nat} (h : InBox index lengths) :
    ∀ x ∈ index, 0 ≤ x ∧ x < (elementCount lengths : Int) := by
  induction lengths generalizing index with
  | nil =>
    cases index with
    | nil => exact fun x hx => nomatch hx
    | cons i index => exact h.elim
  | cons n lengths ih =>
    cases index with
    | nil => exact h.elim
    | cons i index =>
      have hi := h.1
      have hcount := elementCount_pos h.2.pos
      have hn : n ≤ elementCount (n :: lengths) := Nat.le_mul_of_pos_right n hcount
      have hrest : elementCount lengths ≤ elementCount (n :: lengths) :=
        Nat.le_mul_of_pos_left _ (by omega)
      intro x hx
      rcases List.mem_cons.1 hx with rfl | hx
      · omega
      · have hx' := ih h.2 x hx
        omega

namespace Layout

theorem place_lt {layout : Layout} {lengths : List Nat} {index : List Int} (h : InBox index lengths) :
    layout.place lengths index < elementCount lengths := by
  induction lengths generalizing index with
  | nil => cases layout <;> exact Nat.one_pos
  | cons n lengths ih =>
    cases index with
    | nil => exact h.elim
    | cons i index =>
      have hrest := ih h.2
      have hi := h.1
      cases layout with
      | rowMajor =>
        have hmul : (i.toNat + 1) * elementCount lengths ≤ n * elementCount lengths :=
          Nat.mul_le_mul_right _ (by omega)
        rw [Nat.add_mul, Nat.one_mul] at hmul
        simp only [place, elementCount]
        omega
      | columnMajor =>
        have hmul : n * (place columnMajor lengths index + 1) ≤ n * elementCount lengths :=
          Nat.mul_le_mul_left _ hrest
        rw [Nat.mul_add, Nat.mul_one] at hmul
        simp only [place, elementCount]
        omega

theorem inBox_indexAt {layout : Layout} {lengths : List Nat} {q : Nat} (hq : q < elementCount lengths) :
    InBox (layout.indexAt lengths q) lengths := by
  induction lengths generalizing q with
  | nil => cases layout <;> trivial
  | cons n lengths ih =>
    rw [elementCount] at hq
    have hcount : 0 < elementCount lengths := by
      rcases Nat.eq_zero_or_pos (elementCount lengths) with h | h
      · rw [h] at hq
        omega
      · exact h
    cases layout with
    | rowMajor =>
      have hdiv : q / elementCount lengths < n := (Nat.div_lt_iff_lt_mul hcount).2 hq
      exact ⟨⟨Int.natCast_nonneg _, Int.ofNat_lt.2 hdiv⟩, ih (Nat.mod_lt q hcount)⟩
    | columnMajor =>
      have hn : 0 < n := by
        rcases Nat.eq_zero_or_pos n with h | h
        · rw [h] at hq
          omega
        · exact h
      have hmod : q % n < n := Nat.mod_lt q hn
      exact ⟨⟨Int.natCast_nonneg _, Int.ofNat_lt.2 hmod⟩, ih (Nat.div_lt_of_lt_mul hq)⟩

theorem indexAt_place {layout : Layout} {lengths : List Nat} {index : List Int} (h : InBox index lengths) :
    layout.indexAt lengths (layout.place lengths index) = index := by
  induction lengths generalizing index with
  | nil =>
    cases index with
    | nil => cases layout <;> rfl
    | cons i index => exact h.elim
  | cons n lengths ih =>
    cases index with
    | nil => exact h.elim
    | cons i index =>
      have hi : ((i.toNat : Nat) : Int) = i := Int.toNat_of_nonneg h.1.1
      cases layout with
      | rowMajor =>
        have hlt : rowMajor.place lengths index < elementCount lengths := place_lt h.2
        have hdiv : rowMajor.place (n :: lengths) (i :: index) / elementCount lengths = i.toNat := by
          rw [place, Nat.add_comm, Nat.add_mul_div_right _ _ (by omega), Nat.div_eq_of_lt hlt, Nat.zero_add]
        have hmod : rowMajor.place (n :: lengths) (i :: index) % elementCount lengths =
            rowMajor.place lengths index := by
          rw [place, Nat.add_comm, Nat.add_mul_mod_self_right, Nat.mod_eq_of_lt hlt]
        rw [indexAt, hdiv, hmod, hi, ih h.2]
      | columnMajor =>
        have hn : i.toNat < n := by have hlow := h.1; omega
        have hdiv : columnMajor.place (n :: lengths) (i :: index) / n = columnMajor.place lengths index := by
          rw [place, Nat.add_mul_div_left _ _ (by omega), Nat.div_eq_of_lt hn, Nat.zero_add]
        have hmod : columnMajor.place (n :: lengths) (i :: index) % n = i.toNat := by
          rw [place, Nat.add_mul_mod_self_left, Nat.mod_eq_of_lt hn]
        rw [indexAt, hdiv, hmod, hi, ih h.2]

theorem place_indexAt {layout : Layout} {lengths : List Nat} {q : Nat} (hq : q < elementCount lengths) :
    layout.place lengths (layout.indexAt lengths q) = q := by
  induction lengths generalizing q with
  | nil =>
    have hzero : q = 0 := by simpa [elementCount] using hq
    cases layout <;> exact hzero.symm
  | cons n lengths ih =>
    rw [elementCount] at hq
    cases layout with
    | rowMajor =>
      have hcount : 0 < elementCount lengths := by
        rcases Nat.eq_zero_or_pos (elementCount lengths) with h | h
        · rw [h] at hq
          omega
        · exact h
      rw [indexAt, place, ih (Nat.mod_lt q hcount), Int.toNat_natCast]
      exact Nat.div_add_mod' q _
    | columnMajor =>
      rw [indexAt, place, ih (Nat.div_lt_of_lt_mul hq), Int.toNat_natCast]
      exact Nat.mod_add_div q n

/-- The distance of an index from the first element, when each axis has a stride. -/
def distance : List Int → List Nat → Nat
  | i :: index, stride :: strides => i.toNat * stride + distance index strides
  | _, _ => 0

theorem distance_rowStrides (lengths : List Nat) (index : List Int) (hlen : index.length = lengths.length) :
    distance index (rowStrides lengths) = rowMajor.place lengths index := by
  induction lengths generalizing index with
  | nil => cases index <;> rfl
  | cons n lengths ih =>
    cases index with
    | nil => cases hlen
    | cons i index => rw [rowStrides, distance, place, ih index (Nat.succ.inj hlen)]

theorem distance_columnStrides (step : Nat) (lengths : List Nat) (index : List Int)
    (hlen : index.length = lengths.length) :
    distance index (columnStrides step lengths) = step * columnMajor.place lengths index := by
  induction lengths generalizing index step with
  | nil => cases index <;> rfl
  | cons n lengths ih =>
    cases index with
    | nil => cases hlen
    | cons i index =>
      rw [columnStrides, distance, place, ih (step * n) index (Nat.succ.inj hlen), Nat.mul_add, Nat.mul_assoc,
        Nat.mul_comm i.toNat]

theorem distance_strides (layout : Layout) {lengths : List Nat} {index : List Int}
    (hlen : index.length = lengths.length) :
    distance index (layout.strides lengths) = layout.place lengths index := by
  cases layout with
  | rowMajor => exact distance_rowStrides lengths index hlen
  | columnMajor => rw [strides, distance_columnStrides 1 lengths index hlen, Nat.one_mul]

theorem map_rowStrides (lengths : List Nat) (q : Nat) :
    ((lengths.zip (rowStrides lengths)).map fun a => ((q / a.2 % a.1 : Nat) : Int)) =
      rowMajor.indexAt lengths (q % elementCount lengths) := by
  induction lengths generalizing q with
  | nil => rfl
  | cons n lengths ih =>
    have hdiv : q % elementCount (n :: lengths) / elementCount lengths = q / elementCount lengths % n := by
      rw [elementCount, Nat.mul_comm n, Nat.mod_mul_right_div_self]
    have hmod : q % elementCount (n :: lengths) % elementCount lengths = q % elementCount lengths := by
      rw [elementCount, Nat.mod_mul_left_mod]
    rw [rowStrides, List.zip_cons_cons, List.map_cons, ih, indexAt, hdiv, hmod]

theorem map_columnStrides (step : Nat) (lengths : List Nat) (q : Nat) :
    ((lengths.zip (columnStrides step lengths)).map fun a => ((q / a.2 % a.1 : Nat) : Int)) =
      columnMajor.indexAt lengths (q / step) := by
  induction lengths generalizing q step with
  | nil => rfl
  | cons n lengths ih =>
    rw [columnStrides, List.zip_cons_cons, List.map_cons, ih, indexAt, Nat.div_div_eq_div_mul]

theorem map_strides (layout : Layout) {lengths : List Nat} {q : Nat} (hq : q < elementCount lengths) :
    ((lengths.zip (layout.strides lengths)).map fun a => ((q / a.2 % a.1 : Nat) : Int)) =
      layout.indexAt lengths q := by
  cases layout with
  | rowMajor => rw [strides, map_rowStrides, Nat.mod_eq_of_lt hq]
  | columnMajor => rw [strides, map_columnStrides, Nat.div_one]

theorem dvd_of_mem_rowStrides {lengths : List Nat} {a : Nat × Nat} (ha : a ∈ lengths.zip (rowStrides lengths)) :
    a.1 * a.2 ∣ elementCount lengths := by
  induction lengths with
  | nil => cases ha
  | cons n lengths ih =>
    rw [rowStrides, List.zip_cons_cons] at ha
    rcases List.mem_cons.1 ha with rfl | ha
    · exact Nat.dvd_refl _
    · exact Nat.dvd_mul_left_of_dvd (ih ha) n

theorem dvd_of_mem_columnStrides {step : Nat} {lengths : List Nat} {a : Nat × Nat}
    (ha : a ∈ lengths.zip (columnStrides step lengths)) : a.1 * a.2 ∣ step * elementCount lengths := by
  induction lengths generalizing step with
  | nil => cases ha
  | cons n lengths ih =>
    rw [elementCount, ← Nat.mul_assoc]
    rw [columnStrides, List.zip_cons_cons] at ha
    rcases List.mem_cons.1 ha with rfl | ha
    · exact Nat.mul_comm n step ▸ Nat.dvd_mul_right _ _
    · exact ih ha

theorem dvd_of_mem_strides (layout : Layout) {lengths : List Nat} {a : Nat × Nat}
    (ha : a ∈ lengths.zip (layout.strides lengths)) : a.1 * a.2 ∣ elementCount lengths := by
  cases layout with
  | rowMajor => exact dvd_of_mem_rowStrides ha
  | columnMajor => exact Nat.one_mul (elementCount lengths) ▸ dvd_of_mem_columnStrides ha

theorem le_of_mem_rowStrides {lengths : List Nat} (hpos : ∀ n ∈ lengths, 0 < n) {a : Nat × Nat}
    (ha : a ∈ lengths.zip (rowStrides lengths)) : 0 < a.2 ∧ a.1 * a.2 ≤ elementCount lengths := by
  induction lengths with
  | nil => cases ha
  | cons n lengths ih =>
    have hrest : ∀ k ∈ lengths, 0 < k := fun k hk => hpos k (List.mem_cons_of_mem n hk)
    rw [rowStrides, List.zip_cons_cons] at ha
    rcases List.mem_cons.1 ha with rfl | ha
    · exact ⟨elementCount_pos hrest, Nat.le_refl _⟩
    · obtain ⟨hstride, hle⟩ := ih hrest ha
      exact ⟨hstride, Nat.le_trans hle (Nat.le_mul_of_pos_left _ (hpos n List.mem_cons_self))⟩

theorem le_of_mem_columnStrides {step : Nat} {lengths : List Nat} (hstep : 0 < step) (hpos : ∀ n ∈ lengths, 0 < n)
    {a : Nat × Nat} (ha : a ∈ lengths.zip (columnStrides step lengths)) :
    0 < a.2 ∧ a.1 * a.2 ≤ step * elementCount lengths := by
  induction lengths generalizing step with
  | nil => cases ha
  | cons n lengths ih =>
    have hn := hpos n List.mem_cons_self
    have hrest : ∀ k ∈ lengths, 0 < k := fun k hk => hpos k (List.mem_cons_of_mem n hk)
    rw [elementCount, ← Nat.mul_assoc]
    rw [columnStrides, List.zip_cons_cons] at ha
    rcases List.mem_cons.1 ha with rfl | ha
    · refine ⟨hstep, ?_⟩
      rw [Nat.mul_comm n]
      exact Nat.le_mul_of_pos_right _ (elementCount_pos hrest)
    · exact ih (Nat.mul_pos hstep hn) hrest ha

theorem le_of_mem_strides (layout : Layout) {lengths : List Nat} (hpos : ∀ n ∈ lengths, 0 < n) {a : Nat × Nat}
    (ha : a ∈ lengths.zip (layout.strides lengths)) : 0 < a.2 ∧ a.1 * a.2 ≤ elementCount lengths := by
  cases layout with
  | rowMajor => exact le_of_mem_rowStrides hpos ha
  | columnMajor =>
    have hle := le_of_mem_columnStrides Nat.one_pos hpos ha
    rwa [Nat.one_mul] at hle

end Layout

theorem offsetFrom?_eq_place {start : Nat} {index : List Int} {lengths : List Nat} (h : InBox index lengths) :
    offsetFrom? start index lengths =
      some (start * elementCount lengths + Layout.rowMajor.place lengths index) := by
  induction lengths generalizing start index with
  | nil =>
    cases index with
    | nil => simp [offsetFrom?, elementCount, Layout.place]
    | cons i index => exact h.elim
  | cons n lengths ih =>
    cases index with
    | nil => exact h.elim
    | cons i index =>
      have hi := h.1
      rw [offsetFrom?, if_neg (by omega), ih h.2, elementCount, Layout.place]
      simp only [Nat.add_mul, Nat.mul_assoc, Nat.add_assoc]

end ArrayPlan
