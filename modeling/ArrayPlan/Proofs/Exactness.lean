import ArrayPlan.Plan.Elementwise
import ArrayPlan.Plan.Reshape
import ArrayPlan.Proofs.Enumerating
import ArrayPlan.Proofs.Interpretation
import ArrayPlan.Proofs.Lines
import Mathlib.Algebra.Order.BigOperators.Group.List
import Mathlib.Algebra.Order.Ring.Int
import Mathlib.Data.List.Forall2

/-!
Index expressions. Number operations may round; all that is asked of them is that the integers which occur in
indices are exact. Variables then stand for their positions, and the expressions of a reshape for the index
that the line of elements gives.
-/

namespace ArrayPlan

/-- The largest integer up to which all are doubles. -/
def indexBound : Int :=
  9007199254740992

/-- Numbers that are exact on the integers in indices. -/
class ExactIndices (α : Type) [Scalar α] : Prop where
  toIndex_ofInt (n : Int) : 0 ≤ n → n ≤ indexBound → Scalar.toIndex (Scalar.ofInt n : α) = n
  add (m n : Int) : 0 ≤ m → 0 ≤ n → m + n ≤ indexBound →
    Scalar.add (Scalar.ofInt m) (Scalar.ofInt n) = (Scalar.ofInt (m + n) : α)
  mul (m n : Int) : 0 ≤ m → 0 ≤ n → m ≤ indexBound → n ≤ indexBound → m * n ≤ indexBound →
    Scalar.mul (Scalar.ofInt m) (Scalar.ofInt n) = (Scalar.ofInt (m * n) : α)
  floorDiv (m n : Int) : 0 ≤ m → m ≤ indexBound → 0 < n → n ≤ indexBound →
    Scalar.floorDiv (Scalar.ofInt m) (Scalar.ofInt n) = (Scalar.ofInt (m / n) : α)
  rem (m n : Int) : 0 ≤ m → m ≤ indexBound → 0 < n → n ≤ indexBound →
    Scalar.rem (Scalar.ofInt m) (Scalar.ofInt n) = (Scalar.ofInt (m % n) : α)

class ExactUpTo (bound : Int) (α : Type) [Scalar α] : Prop where
  toIndex_ofInt (n : Int) : 0 ≤ n → n ≤ bound → Scalar.toIndex (Scalar.ofInt n : α) = n
  add (m n : Int) : 0 ≤ m → 0 ≤ n → m + n ≤ bound →
    Scalar.add (Scalar.ofInt m) (Scalar.ofInt n) = (Scalar.ofInt (m + n) : α)
  mul (m n : Int) : 0 ≤ m → 0 ≤ n → m ≤ bound → n ≤ bound → m * n ≤ bound →
    Scalar.mul (Scalar.ofInt m) (Scalar.ofInt n) = (Scalar.ofInt (m * n) : α)
  floorDiv (m n : Int) : 0 ≤ m → m ≤ bound → 0 < n → n ≤ bound →
    Scalar.floorDiv (Scalar.ofInt m) (Scalar.ofInt n) = (Scalar.ofInt (m / n) : α)
  rem (m n : Int) : 0 ≤ m → m ≤ bound → 0 < n → n ≤ bound →
    Scalar.rem (Scalar.ofInt m) (Scalar.ofInt n) = (Scalar.ofInt (m % n) : α)

instance {α : Type} [Scalar α] [ExactIndices α] : ExactUpTo indexBound α where
  toIndex_ofInt := ExactIndices.toIndex_ofInt
  add := ExactIndices.add
  mul := ExactIndices.mul
  floorDiv := ExactIndices.floorDiv
  rem := ExactIndices.rem

/-- Numbers whose indices are numbers again. -/
class StableIndices (α : Type) [Scalar α] : Prop where
  toIndex_ofInt_toIndex (v : α) : Scalar.toIndex (Scalar.ofInt (Scalar.toIndex v) : α) = Scalar.toIndex v

theorem Word.signed_of_le_greatest {n : Nat} (h : (n : Int) ≤ Word.greatest) : Word.signed n = n := by
  have hbound : (n : Int) ≤ 9223372036854775807 := h
  rw [Word.signed, Word.modulus, Int.bmod_def]
  omega

theorem Word.signed_of_le {n : Nat} (h : (n : Int) ≤ indexBound) : Word.signed n = n :=
  signed_of_le_greatest (Int.le_trans h (by decide))

/-- As long as the elements can be counted in words, no number in the expressions of a reshape is read as a negative
one: a stride steps over half of the elements at most, and so does the length of an axis that is not outermost. -/
theorem Layout.signed_of_mem_strides (layout : Layout) {lengths : List Nat} (hpos : ∀ n ∈ lengths, 0 < n)
    (hcount : elementCount lengths < Word.modulus) {a : Nat × Nat} (ha : a ∈ lengths.zip (layout.strides lengths))
    (hone : a.1 ≠ 1) :
    Word.signed a.2 = a.2 ∧ (a.2 * a.1 ≠ elementCount lengths → Word.signed a.1 = a.1) := by
  obtain ⟨hstride, hle⟩ := layout.le_of_mem_strides hpos ha
  have hlength : 0 < a.1 := hpos a.1 (List.of_mem_zip ha).1
  have hmodulus : elementCount lengths < 18446744073709551616 := hcount
  refine ⟨Word.signed_of_le_greatest ?_, fun houter => Word.signed_of_le_greatest ?_⟩
  · have htwice : 2 * a.2 ≤ a.1 * a.2 := Nat.mul_le_mul_right a.2 (by omega)
    show (a.2 : Int) ≤ 9223372036854775807
    omega
  · obtain ⟨k, hk⟩ := layout.dvd_of_mem_strides ha
    have hcountPos : 0 < elementCount lengths := elementCount_pos hpos
    have hsome : k ≠ 0 := fun hzero => by rw [hk, hzero, Nat.mul_zero] at hcountPos; omega
    have hmany : k ≠ 1 := fun hunit => houter (by rw [hk, hunit, Nat.mul_one, Nat.mul_comm])
    have hmore : 2 ≤ k := by omega
    have hline : a.1 ≤ a.1 * a.2 := Nat.le_mul_of_pos_right a.1 hstride
    have htwice : a.1 * a.2 * 2 ≤ a.1 * a.2 * k := Nat.mul_le_mul_left _ hmore
    show (a.1 : Int) ≤ 9223372036854775807
    omega

def Env.Binds (env : Env) (vars : List String) (index : List Int) : Prop :=
  List.Forall₂ (fun v x => env.value? v = some x) vars index

theorem Env.binds_at (env : Env) {vars : List String} {index : List Int} (hnodup : vars.Nodup)
    (hlen : vars.length = index.length) : (env.at vars index).Binds vars index := by
  have hkeys : (vars.zip index).map Prod.fst = vars := List.map_fst_zip (Nat.le_of_eq hlen)
  refine List.forall₂_iff_zip.2 ⟨hlen, fun {v x} hvx => ?_⟩
  refine value?_bindAll_of_mem env ?_ hvx
  rw [hkeys]
  exact hnodup

theorem Env.value?_at_of_not_mem (env : Env) {vars : List String} {index : List Int} {v : String} (hv : v ∉ vars) :
    (env.at vars index).value? v = env.value? v := by
  refine value?_bindAll_of_not_mem env fun hmem => hv ?_
  obtain ⟨b, hb, rfl⟩ := List.mem_map.1 hmem
  exact (List.of_mem_zip hb).1

namespace Interpretation

variable {α : Type} [Scalar α] {I : Interpretation α} {env : Env}

theorem value?_var {v : String} {x : Int} (h : env.value? v = some x) :
    I.value? (.var v) env = some (Scalar.ofInt x) := by
  rw [value?, h]
  rfl

theorem position?_nil : I.position? [] env = some [] :=
  rfl

theorem position?_cons {e : Expr} {es : List Expr} {v : α} {index : List Int} (he : I.value? e env = some v)
    (hes : I.position? es env = some index) : I.position? (e :: es) env = some (Scalar.toIndex v :: index) := by
  obtain ⟨vs, hvs, rfl⟩ := Option.map_eq_some_iff.1 hes
  rw [position?, values?, he, hvs]
  rfl

def rounded (α : Type) [Scalar α] (index : List Int) : List Int :=
  index.map fun x => Scalar.toIndex (Scalar.ofInt x : α)

theorem position?_vars_rounded {vars : List String} {index : List Int} (hbinds : env.Binds vars index) :
    I.position? (vars.map .var) env = some (rounded α index) := by
  induction hbinds with
  | nil => rfl
  | cons hv _ ih => exact position?_cons (value?_var hv) ih

theorem position?_ints_rounded (index : List Int) (env : Env) :
    I.position? (index.map .int) env = some (rounded α index) := by
  induction index with
  | nil => rfl
  | cons i index ih => exact position?_cons (v := Scalar.ofInt i) rfl ih

theorem position?_replicate (count : Nat) (n : Int) :
    I.position? (List.replicate count (.int n)) env = some (rounded α (List.replicate count n)) := by
  induction count with
  | zero => rfl
  | succ count ih => exact position?_cons (v := Scalar.ofInt n) rfl ih

theorem position?_vars_of_exact {vars : List String} {index : List Int} (hbinds : env.Binds vars index)
    (hexact : ∀ x ∈ index, Scalar.toIndex (Scalar.ofInt x : α) = x) :
    I.position? (vars.map .var) env = some index := by
  rw [position?_vars_rounded hbinds, rounded, List.map_congr_left hexact, List.map_id']

section Exact

variable [ExactIndices α]

theorem position?_cons_int {n : Int} (hn : 0 ≤ n ∧ n ≤ indexBound) {es : List Expr} {index : List Int}
    (hes : I.position? es env = some index) : I.position? (.int n :: es) env = some (n :: index) := by
  have hvalue : I.value? (.int n) env = some (Scalar.ofInt n) := rfl
  rw [position?_cons hvalue hes, ExactIndices.toIndex_ofInt n hn.1 hn.2]

theorem position?_cons_var {v : String} {x : Int} (hv : env.value? v = some x) (hx : 0 ≤ x ∧ x ≤ indexBound)
    {es : List Expr} {index : List Int} (hes : I.position? es env = some index) :
    I.position? (.var v :: es) env = some (x :: index) := by
  rw [position?_cons (value?_var hv) hes, ExactIndices.toIndex_ofInt x hx.1 hx.2]

theorem position?_vars {vars : List String} {index : List Int} (hbinds : env.Binds vars index)
    (hbound : ∀ x ∈ index, 0 ≤ x ∧ x ≤ indexBound) : I.position? (vars.map .var) env = some index :=
  position?_vars_of_exact hbinds fun x hx => ExactIndices.toIndex_ofInt x (hbound x hx).1 (hbound x hx).2

end Exact

section Line

variable (bound : Int) [ExactUpTo bound α]

theorem values?_linearTerms {vars : List String} {index : List Int} {lengths strides : List Nat}
    (hbinds : env.Binds vars index) (hbox : InBox index lengths)
    (hstrides : ∀ a ∈ lengths.zip strides, a.1 ≠ 1 → 0 < a.2 ∧ (a.2 : Int) ≤ bound ∧ Word.signed a.2 = a.2)
    (hbound : (Layout.distance index strides : Int) ≤ bound) :
    ∃ xs : List Int, I.values? (linearTerms vars lengths strides) env = some (xs.map Scalar.ofInt) ∧
      xs.sum = Layout.distance index strides ∧ ∀ x ∈ xs, 0 ≤ x := by
  induction lengths generalizing vars index strides with
  | nil =>
    cases index with
    | nil => exact ⟨[], by cases vars <;> rfl, rfl, by simp⟩
    | cons x index => exact hbox.elim
  | cons n lengths ih =>
    cases hbinds with
    | nil => exact hbox.elim
    | @cons v x vars index hv hbinds =>
      cases strides with
      | nil => exact ⟨[], rfl, rfl, by simp⟩
      | cons stride strides =>
        have hx := hbox.1
        have hdistance : ((Layout.distance (x :: index) (stride :: strides) : Nat) : Int) =
            x * stride + Layout.distance index strides := by
          rw [Layout.distance, Int.natCast_add, Int.natCast_mul, Int.toNat_of_nonneg hx.1]
        have hnonneg : 0 ≤ x * (stride : Int) := Int.mul_nonneg hx.1 (Int.natCast_nonneg stride)
        rw [hdistance] at hbound ⊢
        obtain ⟨xs, hvalues, hsum, hxs⟩ := ih hbinds hbox.2 (fun a ha => hstrides a (List.mem_cons_of_mem _ ha))
          (by omega)
        rw [linearTerms]
        by_cases hone : n = 1
        · have hzero : x = 0 := by omega
          refine ⟨xs, ?_, ?_, hxs⟩
          · simp only [hone, if_true, hvalues]
          · rw [hzero, Int.zero_mul, Int.zero_add, hsum]
        · have hvar : I.value? (.var v) env = some (Scalar.ofInt x) := value?_var hv
          obtain ⟨hpos, hle, hliteral⟩ : 0 < stride ∧ (stride : Int) ≤ bound ∧ Word.signed stride = stride :=
            hstrides (n, stride) List.mem_cons_self hone
          have hfactor : x * 1 ≤ x * (stride : Int) := Int.mul_le_mul_of_nonneg_left (by omega) hx.1
          refine ⟨x * stride :: xs, ?_, by rw [List.sum_cons, hsum], ?_⟩
          · by_cases hunit : stride = 1
            · simp only [hone, hunit, if_true, if_false, values?, hvar, hvalues, Option.bind_some, Option.map_some,
                List.map_cons, Int.natCast_one, Int.mul_one]
            · have hmul : Scalar.mul (Scalar.ofInt x) (Scalar.ofInt (Word.signed stride)) =
                  (Scalar.ofInt (x * stride) : α) := by
                rw [hliteral]
                exact ExactUpTo.mul x stride hx.1 (Int.natCast_nonneg stride) (by omega) hle (by omega)
              simp only [hone, hunit, if_false, values?, value?, hv, hvalues, Option.bind_some, Option.map_some,
                List.map_cons, Scalar.arith, hmul]
          · intro y hy
            rcases List.mem_cons.1 hy with rfl | hy
            · exact hnonneg
            · exact hxs y hy

theorem value?_sum_terms {terms : List Expr} {term : Expr} {x : Int} {xs : List Int}
    (hterm : I.value? term env = some (Scalar.ofInt x)) (hterms : I.values? terms env = some (xs.map Scalar.ofInt))
    (hx : 0 ≤ x) (hxs : ∀ y ∈ xs, 0 ≤ y) (hbound : x + xs.sum ≤ bound) :
    I.value? (terms.foldl (.arith .add) term) env = some (Scalar.ofInt (x + xs.sum)) := by
  induction terms generalizing term x xs with
  | nil =>
    obtain rfl : xs = [] := by simpa [values?] using hterms.symm
    simpa using hterm
  | cons e terms ih =>
    simp only [values?] at hterms
    obtain ⟨v, he, htail⟩ := Option.bind_eq_some_iff.1 hterms
    obtain ⟨vs, hvs, hcons⟩ := Option.map_eq_some_iff.1 htail
    cases xs with
    | nil => cases hcons
    | cons y xs =>
      obtain ⟨rfl, rfl⟩ := List.cons.inj hcons
      have hy := hxs y List.mem_cons_self
      have hrest : ∀ z ∈ xs, 0 ≤ z := fun z hz => hxs z (List.mem_cons_of_mem y hz)
      have hnonneg := List.sum_nonneg hrest
      rw [List.sum_cons] at hbound ⊢
      have hadd : I.value? (.arith .add term e) env = some (Scalar.ofInt (x + y)) := by
        rw [value?, hterm, he, ← @ExactUpTo.add bound α _ _ x y hx hy (by omega)]
        rfl
      rw [List.foldl_cons, ih hadd hvs (by omega) hrest (by omega), Int.add_assoc]

theorem value?_linearIndex {vars : List String} {index : List Int} {lengths strides : List Nat}
    (hbinds : env.Binds vars index) (hbox : InBox index lengths)
    (hstrides : ∀ a ∈ lengths.zip strides, a.1 ≠ 1 → 0 < a.2 ∧ (a.2 : Int) ≤ bound ∧ Word.signed a.2 = a.2)
    (hbound : (Layout.distance index strides : Int) ≤ bound) :
    I.value? (linearIndex vars lengths strides) env =
      some (Scalar.ofInt (Layout.distance index strides : Int)) := by
  obtain ⟨xs, hvalues, hsum, hxs⟩ := values?_linearTerms (I := I) bound hbinds hbox hstrides hbound
  rw [linearIndex]
  generalize linearTerms vars lengths strides = terms at hvalues
  cases terms with
  | nil =>
    obtain rfl : xs = [] := by simpa [values?] using hvalues.symm
    rw [← hsum]
    rfl
  | cons term terms =>
    simp only [values?] at hvalues
    obtain ⟨v, hterm, htail⟩ := Option.bind_eq_some_iff.1 hvalues
    obtain ⟨vs, hterms, hcons⟩ := Option.map_eq_some_iff.1 htail
    cases xs with
    | nil => cases hcons
    | cons x xs =>
      obtain ⟨rfl, rfl⟩ := List.cons.inj hcons
      rw [List.sum_cons] at hsum
      have hx := hxs x List.mem_cons_self
      have hfold := value?_sum_terms bound hterm hterms hx (fun y hy => hxs y (List.mem_cons_of_mem x hy)) (by omega)
      rw [← hsum]
      exact hfold

theorem toIndex_axisPosition {line : Expr} {q total length stride : Nat}
    (hline : I.value? line env = some (Scalar.ofInt q)) (hq : q < total) (htotal : (total : Int) ≤ bound)
    (hstride : 0 < stride ∧ length * stride ≤ total) (hlength : 0 < length)
    (hliteral : length ≠ 1 → Word.signed stride = stride ∧ (stride * length ≠ total → Word.signed length = length)) :
    ∃ v : α, I.value? (axisPosition line total length stride) env = some v ∧
      Scalar.toIndex v = ((q / stride % length : Nat) : Int) := by
  have hle : stride ≤ length * stride := Nat.le_mul_of_pos_left stride hlength
  have hle' : length ≤ length * stride := Nat.le_mul_of_pos_right length hstride.1
  have hexact : ∀ n : Nat, n ≤ q → Scalar.toIndex (Scalar.ofInt (n : Int) : α) = n := fun n hn =>
    @ExactUpTo.toIndex_ofInt bound α _ _ n (Int.natCast_nonneg n) (by omega)
  rw [axisPosition]
  by_cases hone : length = 1
  · rw [if_pos hone, hone, Nat.mod_one]
    exact ⟨_, rfl, hexact 0 (Nat.zero_le q)⟩
  rw [if_neg hone]
  obtain ⟨hstrideLiteral, hlengthLiteral⟩ := hliteral hone
  have houter : I.value? (if stride = 1 then line else .arith .floorDiv line (.int (Word.signed stride))) env =
      some (Scalar.ofInt ((q / stride : Nat) : Int)) := by
    by_cases hunit : stride = 1
    · rw [if_pos hunit, hunit, Nat.div_one, hline]
    · rw [if_neg hunit, hstrideLiteral, Int.natCast_ediv]
      rw [← @ExactUpTo.floorDiv bound α _ _ (q : Int) stride (by omega) (by omega) (by omega) (by omega), value?, hline]
      rfl
  have hdiv : q / stride ≤ q := Nat.div_le_self q stride
  simp only
  generalize (if stride = 1 then line else .arith .floorDiv line (.int (Word.signed stride))) = outer at houter
  by_cases hlast : stride * length = total
  · have hlt : q / stride < length := (Nat.div_lt_iff_lt_mul hstride.1).2 (by rw [Nat.mul_comm]; omega)
    simp only [hlast, if_true]
    refine ⟨_, houter, ?_⟩
    rw [hexact _ hdiv, Nat.mod_eq_of_lt hlt]
  · simp only [hlast, if_false]
    refine ⟨Scalar.ofInt ((q / stride % length : Nat) : Int), ?_, ?_⟩
    · have hnonneg := Int.natCast_nonneg (q / stride)
      have hbound : ((q / stride : Nat) : Int) ≤ bound := Int.le_trans (Int.ofNat_le.2 hdiv) (by omega)
      rw [hlengthLiteral hlast, Int.natCast_emod]
      rw [← ExactUpTo.rem _ length hnonneg hbound (by omega) (by omega), value?, houter]
      rfl
    · exact hexact _ (Nat.le_trans (Nat.mod_le _ _) hdiv)

theorem position?_indexAtLine {line : Expr} {q : Nat} {lengths : List Nat} {layout : Layout}
    (hline : I.value? line env = some (Scalar.ofInt q)) (hq : q < elementCount lengths)
    (htotal : (elementCount lengths : Int) ≤ bound) (hpos : ∀ n ∈ lengths, 0 < n)
    (hliterals : ∀ a ∈ lengths.zip (layout.strides lengths), a.1 ≠ 1 →
      Word.signed a.2 = a.2 ∧ (a.2 * a.1 ≠ elementCount lengths → Word.signed a.1 = a.1)) :
    I.position? (indexAtLine line (elementCount lengths) lengths (layout.strides lengths)) env =
      some (layout.indexAt lengths q) := by
  have haxes : ∀ axes : List (Nat × Nat), (∀ a ∈ axes, a ∈ lengths.zip (layout.strides lengths)) →
      I.position? (axes.map fun a => axisPosition line (elementCount lengths) a.1 a.2) env =
        some (axes.map fun a => ((q / a.2 % a.1 : Nat) : Int)) := by
    intro axes haxes
    induction axes with
    | nil => rfl
    | cons a axes ih =>
      have ha := haxes a List.mem_cons_self
      obtain ⟨v, hv, hindex⟩ := toIndex_axisPosition bound hline hq htotal (layout.le_of_mem_strides hpos ha)
        (hpos a.1 (List.of_mem_zip ha).1) (hliterals a ha)
      rw [List.map_cons, position?_cons hv (ih fun b hb => haxes b (List.mem_cons_of_mem a hb)), hindex,
        List.map_cons]
  rw [indexAtLine, haxes _ fun a ha => ha, layout.map_strides hq]

theorem position?_reshaped {vars : List String} {index : List Int} {lengths sourceLengths : List Nat}
    (layout sourceLayout : Layout) (hbinds : env.Binds vars index) (hbox : InBox index lengths)
    (hcount : elementCount lengths = elementCount sourceLengths) (hpos : ∀ n ∈ sourceLengths, 0 < n)
    (hbound : (elementCount sourceLengths : Int) ≤ bound) (hword : elementCount sourceLengths < Word.modulus) :
    I.position? (indexAtLine (linearIndex vars lengths (layout.strides lengths)) (elementCount sourceLengths)
      sourceLengths (sourceLayout.strides sourceLengths)) env =
        some (sourceLayout.indexAt sourceLengths (layout.place lengths index)) := by
  have hplace : layout.place lengths index < elementCount lengths := Layout.place_lt hbox
  have hdistance := layout.distance_strides hbox.length_eq
  have hstrides : ∀ a ∈ lengths.zip (layout.strides lengths), a.1 ≠ 1 →
      0 < a.2 ∧ (a.2 : Int) ≤ bound ∧ Word.signed a.2 = a.2 := by
    intro a ha hone
    obtain ⟨hstride, hle⟩ := layout.le_of_mem_strides hbox.pos ha
    have hline : a.2 ≤ a.1 * a.2 := Nat.le_mul_of_pos_left a.2 (hbox.pos a.1 (List.of_mem_zip ha).1)
    exact ⟨hstride, by omega, (layout.signed_of_mem_strides hbox.pos (hcount ▸ hword) ha hone).1⟩
  have hline : I.value? (linearIndex vars lengths (layout.strides lengths)) env =
      some (Scalar.ofInt (layout.place lengths index : Int)) := by
    rw [← hdistance]
    exact value?_linearIndex bound hbinds hbox hstrides (by rw [hdistance]; omega)
  exact position?_indexAtLine bound hline (hcount ▸ hplace) hbound hpos
    fun a ha hone => sourceLayout.signed_of_mem_strides hpos hword ha hone

end Line

end Interpretation

end ArrayPlan
