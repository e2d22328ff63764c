import ArrayPlan.Text.Listing

/-!
Affine forms: integer combinations of named dimensions with a constant, and the constraints that such a form
is not negative. Adding a term merges it with a present term of that name; a term that cancels is dropped. So the
terms of a form are of different names, and none of them is zero.
-/

namespace ArrayPlan

@[ext]
structure Affine where
  terms : List (String × Int)
  constant : Int
  distinct : (terms.map Prod.fst).Nodup
  nonzero : ∀ t ∈ terms, t.2 ≠ 0
deriving DecidableEq, Repr

namespace Affine

def ofConstant (c : Int) : Affine :=
  ⟨[], c, List.nodup_nil, nofun⟩

def mergeTerm (name : String) (coefficient : Int) : List (String × Int) → List (String × Int)
  | [] => [(name, coefficient)]
  | (n, c) :: terms =>
    if n = name then (n, c + coefficient) :: terms
    else (n, c) :: mergeTerm name coefficient terms

theorem map_fst_mergeTerm (name : String) (c : Int) (terms : List (String × Int)) :
    (mergeTerm name c terms).map Prod.fst =
      if name ∈ terms.map Prod.fst then terms.map Prod.fst else terms.map Prod.fst ++ [name] := by
  induction terms with
  | nil => rfl
  | cons t terms ih =>
    obtain ⟨n, d⟩ := t
    rw [mergeTerm]
    by_cases h : n = name
    · simp [h]
    · rw [if_neg h, List.map_cons, ih]
      by_cases hmem : name ∈ terms.map Prod.fst
      · simp [hmem]
      · have hnot : name ∉ ((n, d) :: terms).map Prod.fst := by simpa [Ne.symm h] using hmem
        rw [if_neg hmem, if_neg hnot]
        rfl

theorem nodup_mergeTerm {terms : List (String × Int)} (h : (terms.map Prod.fst).Nodup) (name : String) (c : Int) :
    ((mergeTerm name c terms).map Prod.fst).Nodup := by
  rw [map_fst_mergeTerm]
  split
  · exact h
  · rename_i hname
    refine List.nodup_append.2 ⟨h, List.pairwise_singleton _ _, fun n hn m hm hnm => hname ?_⟩
    rwa [← List.mem_singleton.1 hm, ← hnm]

def addTerm (a : Affine) (name : String) (coefficient : Int) : Affine where
  terms := (mergeTerm name coefficient a.terms).filter fun t => t.2 ≠ 0
  constant := a.constant
  distinct := (nodup_mergeTerm a.distinct name coefficient).sublist (List.filter_sublist.map Prod.fst)
  nonzero t ht := by simpa using (List.mem_filter.1 ht).2

@[simp] theorem terms_addTerm (a : Affine) (name : String) (c : Int) :
    (a.addTerm name c).terms = (mergeTerm name c a.terms).filter fun t => t.2 ≠ 0 :=
  rfl

@[simp] theorem constant_addTerm (a : Affine) (name : String) (c : Int) : (a.addTerm name c).constant = a.constant :=
  rfl

def addConstant (a : Affine) (c : Int) : Affine :=
  { a with constant := a.constant + c }

def ofVar (name : String) : Affine :=
  (ofConstant 0).addTerm name 1

def sub (a b : Affine) : Affine :=
  b.terms.foldl (fun d t => d.addTerm t.1 (-t.2)) (a.addConstant (-b.constant))

def coefficientIn (terms : List (String × Int)) (name : String) : Int :=
  ((terms.find? fun t => t.1 = name).map Prod.snd).getD 0

def coefficient (a : Affine) (name : String) : Int :=
  coefficientIn a.terms name

def sumFrom? (lookup : String → Option Int) (start : Int) (terms : List (String × Int)) : Option Int :=
  terms.foldlM (fun total t => (lookup t.1).map fun v => total + t.2 * v) start

def value? (lookup : String → Option Int) (a : Affine) : Option Int :=
  sumFrom? lookup a.constant a.terms

def termText (name : String) (coefficient : Int) : String :=
  (if coefficient.natAbs = 1 then "" else toString coefficient.natAbs) ++ name

def laterTermsText : List (String × Int) → String
  | [] => ""
  | (name, c) :: terms => (if c < 0 then " - " else " + ") ++ termText name c ++ laterTermsText terms

def constantText (c : Int) : String :=
  if 0 < c then " + " ++ toString c
  else if c < 0 then " - " ++ toString (-c)
  else ""

def text (a : Affine) : String :=
  match a.terms with
  | [] => toString a.constant
  | (name, c) :: terms =>
    (if c < 0 then "-" else "") ++ termText name c ++ laterTermsText terms ++ constantText a.constant

end Affine

/-- The form is at least zero. -/
structure Constraint where
  form : Affine
deriving DecidableEq, Repr

namespace Constraint

def le (a b : Affine) : Constraint :=
  ⟨b.sub a⟩

def holds? (lookup : String → Option Int) (c : Constraint) : Option Bool :=
  (c.form.value? lookup).map fun v => decide (0 ≤ v)

def text (c : Constraint) : String :=
  c.form.text ++ " >= 0"

end Constraint

end ArrayPlan
