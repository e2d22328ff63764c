import ArrayPlan.Proofs.Coverage
import Mathlib.Tactic.Ring

/-!
Affine forms as linear functions. A form remembers neither the order nor the number of the additions that made it: its
terms are of different names, none of them with coefficient zero, and at every assignment its value is that of the sum
as it was written. A term that cancels goes, and comes back at the end if its name is added again, so the laws are
stated on values and coefficients and not on the list of terms. A constraint between two forms is the sign of their
difference.
-/

namespace ArrayPlan

namespace Affine

def names (a : Affine) : List String :=
  a.terms.map Prod.fst

def valueAt (assign : String → Int) (a : Affine) : Int :=
  a.constant + (a.terms.map fun t => t.2 * assign t.1).sum

section ValueAt

variable (assign : String → Int)

theorem sum_mergeTerm (name : String) (c : Int) (terms : List (String × Int)) :
    ((mergeTerm name c terms).map fun t => t.2 * assign t.1).sum =
      (terms.map fun t => t.2 * assign t.1).sum + c * assign name := by
  induction terms with
  | nil => simp [mergeTerm]
  | cons t terms ih =>
    obtain ⟨n, d⟩ := t
    rw [mergeTerm]
    split
    · rename_i hname
      simp only [List.map_cons, List.sum_cons, hname]
      ring
    · simp only [List.map_cons, List.sum_cons, ih]
      ring

theorem sum_filter_nonzero (terms : List (String × Int)) :
    ((terms.filter fun t => t.2 ≠ 0).map fun t => t.2 * assign t.1).sum =
      (terms.map fun t => t.2 * assign t.1).sum := by
  induction terms with
  | nil => rfl
  | cons t terms ih =>
    by_cases hzero : t.2 = 0
    · rw [List.filter_cons_of_neg (by simpa using hzero), ih, List.map_cons, List.sum_cons, hzero]
      simp
    · rw [List.filter_cons_of_pos (by simpa using hzero), List.map_cons, List.map_cons, List.sum_cons, List.sum_cons, ih]

@[simp] theorem valueAt_ofConstant (c : Int) : (ofConstant c).valueAt assign = c := by
  simp [valueAt, ofConstant]

@[simp] theorem valueAt_addTerm (a : Affine) (name : String) (c : Int) :
    (a.addTerm name c).valueAt assign = a.valueAt assign + c * assign name := by
  simp only [valueAt, addTerm]
  rw [sum_filter_nonzero, sum_mergeTerm, Int.add_assoc]

@[simp] theorem valueAt_addConstant (a : Affine) (c : Int) :
    (a.addConstant c).valueAt assign = a.valueAt assign + c := by
  simp only [valueAt, addConstant]
  ring

@[simp] theorem valueAt_ofVar (name : String) : (ofVar name).valueAt assign = assign name := by
  simp [ofVar]

@[simp] theorem valueAt_sub (a b : Affine) : (a.sub b).valueAt assign = a.valueAt assign - b.valueAt assign := by
  have hfold : ∀ (terms : List (String × Int)) (d : Affine),
      (terms.foldl (fun d t => d.addTerm t.1 (-t.2)) d).valueAt assign =
        d.valueAt assign - (terms.map fun t => t.2 * assign t.1).sum := by
    intro terms
    induction terms with
    | nil => simp
    | cons t terms ih =>
      intro d
      rw [List.foldl_cons, ih, valueAt_addTerm, List.map_cons, List.sum_cons]
      ring
  rw [sub, hfold, valueAt_addConstant, valueAt, valueAt]
  ring

theorem constant_eq_valueAt (a : Affine) : a.constant = a.valueAt fun _ => 0 := by
  simp [valueAt]

end ValueAt

section Names

variable {a : Affine} {name : String}

theorem mem_names_addTerm {other : String} {c : Int} (h : name ∈ (a.addTerm other c).names) :
    name ∈ a.names ∨ name = other := by
  have hmerged : name ∈ (mergeTerm other c a.terms).map Prod.fst := (List.filter_sublist.map Prod.fst).subset h
  rw [map_fst_mergeTerm] at hmerged
  split at hmerged
  · exact .inl hmerged
  · simpa [names] using hmerged

theorem mem_names_sub {b : Affine} (h : name ∈ (a.sub b).names) : name ∈ a.names ∨ name ∈ b.names := by
  refine List.foldlRecOn (motive := fun d : Affine => name ∈ d.names → name ∈ a.names ∨ name ∈ b.names) b.terms
    (fun d t => d.addTerm t.1 (-t.2)) (b := a.addConstant (-b.constant)) ?_ ?_ h
  · exact .inl
  · intro d hd t ht hname
    rcases mem_names_addTerm hname with hname | rfl
    · exact hd hname
    · exact .inr (List.mem_map_of_mem ht)

theorem coefficientIn_of_not_mem {terms : List (String × Int)} (h : name ∉ terms.map Prod.fst) :
    coefficientIn terms name = 0 := by
  have hnone : terms.find? (fun t => t.1 = name) = none :=
    List.find?_eq_none.2 fun t ht hname => h (of_decide_eq_true hname ▸ List.mem_map_of_mem ht)
  rw [coefficientIn, hnone]
  rfl

theorem coefficient_of_mem {t : String × Int} (ht : t ∈ a.terms) : a.coefficient t.1 = t.2 := by
  cases hfind : a.terms.find? fun s => s.1 = t.1 with
  | none => simpa using List.find?_eq_none.1 hfind t ht
  | some s =>
    have hname : s.1 = t.1 := by simpa using List.find?_some hfind
    have hsame : s = t := List.inj_on_of_nodup_map a.distinct (List.mem_of_find?_eq_some hfind) ht hname
    rw [coefficient, coefficientIn, hfind, hsame]
    rfl

theorem coefficient_eq_valueAt (a : Affine) (name : String) :
    a.coefficient name = (a.valueAt fun n => if n = name then 1 else 0) - a.constant := by
  have hsum : ∀ terms : List (String × Int), (terms.map Prod.fst).Nodup →
      coefficientIn terms name = (terms.map fun t => t.2 * if t.1 = name then 1 else 0).sum := by
    intro terms hnodup
    induction terms with
    | nil => rfl
    | cons t terms ih =>
      obtain ⟨hhead, hterms⟩ := List.nodup_cons.1 hnodup
      rw [List.map_cons, List.sum_cons, ← ih hterms]
      by_cases hname : t.1 = name
      · have hlater : coefficientIn terms name = 0 := coefficientIn_of_not_mem (hname ▸ hhead)
        rw [hlater, if_pos hname]
        simp [coefficientIn, hname]
      · rw [if_neg hname]
        simp [coefficientIn, hname]
  rw [coefficient, hsum a.terms a.distinct, valueAt]
  ring

theorem mem_names_iff (a : Affine) (name : String) : name ∈ a.names ↔ a.coefficient name ≠ 0 := by
  constructor
  · intro hname
    obtain ⟨t, ht, rfl⟩ := List.mem_map.1 hname
    rw [coefficient_of_mem ht]
    exact a.nonzero t ht
  · intro hcoefficient
    by_contra hname
    exact hcoefficient (coefficientIn_of_not_mem hname)

end Names

section Lookups

variable {lookup : String → Option Int} {a : Affine}

theorem value?_eq_valueAt {assign : String → Int} (h : ∀ t ∈ a.terms, lookup t.1 = some (assign t.1)) :
    a.value? lookup = some (a.valueAt assign) := by
  rw [value?, valueAt]
  generalize a.terms = terms at h ⊢
  induction terms with
  | nil => simp [sumFrom?]
  | cons t terms ih =>
    obtain ⟨hhead, hterms⟩ := List.forall_mem_cons.1 h
    refine sumFrom?_eq_some_cons.2 ⟨assign t.1, _, hhead, ih hterms, ?_⟩
    simp only [List.map_cons, List.sum_cons]
    ring

theorem value?_isSome_iff_names : (a.value? lookup).isSome ↔ ∀ name ∈ a.names, (lookup name).isSome := by
  rw [value?_isSome_iff, names, List.forall_mem_map]

theorem value?_eq_some_iff {r : Int} : a.value? lookup = some r ↔
    (∀ name ∈ a.names, (lookup name).isSome) ∧ r = a.valueAt fun name => (lookup name).getD 0 := by
  have hvalue : (∀ name ∈ a.names, (lookup name).isSome) →
      a.value? lookup = some (a.valueAt fun name => (lookup name).getD 0) := by
    intro hbound
    refine value?_eq_valueAt fun t ht => ?_
    obtain ⟨v, hv⟩ := Option.isSome_iff_exists.1 (hbound t.1 (List.mem_map_of_mem ht))
    rw [hv, Option.getD_some]
  constructor
  · intro hr
    have hbound := value?_isSome_iff_names.1 (by rw [hr]; rfl)
    rw [hvalue hbound] at hr
    exact ⟨hbound, (Option.some.inj hr).symm⟩
  · rintro ⟨hbound, rfl⟩
    exact hvalue hbound

theorem value?_ofVar (lookup : String → Option Int) (name : String) : (ofVar name).value? lookup = lookup name := by
  cases h : lookup name <;> simp [ofVar, ofConstant, addTerm, mergeTerm, value?, sumFrom?, h]

theorem value?_addConstant {r : Int} (h : a.value? lookup = some r) (c : Int) :
    (a.addConstant c).value? lookup = some (r + c) := by
  obtain ⟨hbound, rfl⟩ := value?_eq_some_iff.1 h
  exact value?_eq_some_iff.2 ⟨hbound, (valueAt_addConstant _ a c).symm⟩

end Lookups

/-- The form is in normal form and stands for the linear function with these coefficients and this constant: it has a
term for each coefficient that is not zero, and a value exactly when the names of these are bound. -/
structure Represents (a : Affine) (coefficients : String → Int) (constant : Int) : Prop where
  distinct : a.names.Nodup
  nonzero : ∀ t ∈ a.terms, t.2 ≠ 0
  coefficient : ∀ name, a.coefficient name = coefficients name
  mem_names : ∀ name, name ∈ a.names ↔ coefficients name ≠ 0
  bound : ∀ lookup, (a.value? lookup).isSome ↔ ∀ name ∈ a.names, (lookup name).isSome
  value : ∀ lookup r, a.value? lookup = some r →
    r = constant + (a.names.map fun name => coefficients name * (lookup name).getD 0).sum

theorem represents {a : Affine} {coefficients : String → Int} {constant : Int}
    (hconstant : (a.valueAt fun _ => 0) = constant)
    (hunit : ∀ name, (a.valueAt fun n => if n = name then 1 else 0) = constant + coefficients name) :
    a.Represents coefficients constant := by
  have hcoefficient : ∀ name, a.coefficient name = coefficients name := by
    intro name
    rw [coefficient_eq_valueAt, hunit, constant_eq_valueAt, hconstant]
    ring
  refine ⟨a.distinct, a.nonzero, hcoefficient, fun name => ?_, fun _ => value?_isSome_iff_names, fun lookup r hr => ?_⟩
  · rw [mem_names_iff, hcoefficient]
  · rw [(value?_eq_some_iff.1 hr).2, valueAt, constant_eq_valueAt, hconstant, names, List.map_map]
    refine congrArg (constant + List.sum ·) (List.map_congr_left fun t ht => ?_)
    rw [Function.comp, ← hcoefficient, coefficient_of_mem ht]

end Affine

theorem Constraint.holds?_le {lookup : String → Option Int} {a b : Affine} {x y : Int} (ha : a.value? lookup = some x)
    (hb : b.value? lookup = some y) : (le a b).holds? lookup = some (decide (x ≤ y)) := by
  obtain ⟨hbound, rfl⟩ := Affine.value?_eq_some_iff.1 ha
  obtain ⟨hbound', rfl⟩ := Affine.value?_eq_some_iff.1 hb
  have hnames : ∀ name ∈ (b.sub a).names, (lookup name).isSome := fun name hname =>
    (Affine.mem_names_sub hname).elim (hbound' name) (hbound name)
  have hvalue : (b.sub a).value? lookup = _ := Affine.value?_eq_some_iff.2 ⟨hnames, rfl⟩
  rw [holds?, le, hvalue, Affine.valueAt_sub, Option.map_some]
  exact congrArg some (decide_eq_decide.2 Int.sub_nonneg)

/-- A constant or a variable, with terms and constants added to it. -/
inductive AffineSum where
  | constant (c : Int)
  | var (name : String)
  | addTerm (s : AffineSum) (name : String) (c : Int)
  | addConstant (s : AffineSum) (c : Int)

namespace AffineSum

def form : AffineSum → Affine
  | constant c => .ofConstant c
  | var name => .ofVar name
  | addTerm s name c => s.form.addTerm name c
  | addConstant s c => s.form.addConstant c

def coefficient (name : String) : AffineSum → Int
  | constant _ => 0
  | var n => if n = name then 1 else 0
  | addTerm s n c => s.coefficient name + if n = name then c else 0
  | addConstant s _ => s.coefficient name

def constants : AffineSum → Int
  | constant c => c
  | var _ => 0
  | addTerm s _ _ => s.constants
  | addConstant s c => s.constants + c

theorem valueAt_zero (s : AffineSum) : (s.form.valueAt fun _ => 0) = s.constants := by
  induction s with
  | constant c => simp [form, constants]
  | var name => simp [form, constants]
  | addTerm s name c ih => simp [form, constants, ih]
  | addConstant s c ih => simp [form, constants, ih]

theorem valueAt_unit (s : AffineSum) (name : String) :
    (s.form.valueAt fun n => if n = name then 1 else 0) = s.constants + s.coefficient name := by
  induction s with
  | constant c => simp [form, constants, coefficient]
  | var n => simp [form, constants, coefficient]
  | addTerm s n c ih =>
    simp only [form, constants, coefficient, Affine.valueAt_addTerm, ih]
    split <;> ring
  | addConstant s c ih =>
    simp only [form, constants, coefficient, Affine.valueAt_addConstant, ih]
    ring

/-- Whatever is added in whatever order is kept as a normal form of the sum, the difference in a constraint between two
of them is a normal form again, and the constraint holds exactly when the first value is at most the second. -/
theorem form_linear :
    (∀ s : AffineSum, s.form.Represents s.coefficient s.constants) ∧
    (∀ a b : AffineSum, (Constraint.le a.form b.form).form.Represents
      (fun name => b.coefficient name - a.coefficient name) (b.constants - a.constants)) ∧
    ∀ (a b : AffineSum) (lookup : String → Option Int), (∀ name ∈ a.form.names ++ b.form.names, (lookup name).isSome) →
      ∃ x y, a.form.value? lookup = some x ∧ b.form.value? lookup = some y ∧
        (Constraint.le a.form b.form).holds? lookup = some (decide (x ≤ y)) := by
  refine ⟨fun s => ?_, fun a b => ?_, fun a b lookup hbound => ?_⟩
  · exact Affine.represents s.valueAt_zero s.valueAt_unit
  · refine Affine.represents ?_ fun name => ?_
    · rw [Constraint.le, Affine.valueAt_sub, valueAt_zero, valueAt_zero]
    · rw [Constraint.le, Affine.valueAt_sub, valueAt_unit, valueAt_unit]
      ring
  · obtain ⟨hnames, hnames'⟩ := List.forall_mem_append.1 hbound
    obtain ⟨x, hx⟩ := Option.isSome_iff_exists.1 (Affine.value?_isSome_iff_names.2 hnames)
    obtain ⟨y, hy⟩ := Option.isSome_iff_exists.1 (Affine.value?_isSome_iff_names.2 hnames')
    exact ⟨x, y, hx, hy, Constraint.holds?_le hx hy⟩

def merged : AffineSum :=
  (((var "i").addTerm "j" 2).addTerm "i" 1).addConstant (-1)

def restored : AffineSum :=
  ((((constant 3).addTerm "i" 2).addTerm "n" 1).addTerm "n" (-1)).addTerm "n" 3

theorem form_linear_cancelled :
    (Constraint.le merged.form restored.form).form.coefficient "i" = 0 ∧
    (Constraint.le merged.form restored.form).form.coefficient "j" = -2 ∧
    (Constraint.le merged.form restored.form).holds? ([("i", 1), ("j", 7), ("n", 4)].lookup ·) = some true := by
  obtain ⟨_, hdifference, hcompare⟩ := form_linear
  have hcoefficient := (hdifference merged restored).coefficient
  obtain ⟨x, y, hx, hy, hholds⟩ := hcompare merged restored ([("i", 1), ("j", 7), ("n", 4)].lookup ·) (by decide +kernel)
  obtain rfl : (15 : Int) = x := Option.some.inj (hx.symm.trans (by decide +kernel)).symm
  obtain rfl : (17 : Int) = y := Option.some.inj (hy.symm.trans (by decide +kernel)).symm
  exact ⟨hcoefficient "i", hcoefficient "j", hholds⟩

end AffineSum

end ArrayPlan
