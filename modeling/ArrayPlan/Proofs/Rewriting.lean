import ArrayPlan.Loading
import ArrayPlan.Proofs.Interpretation

/-!
What turning backed calls into loads does to an expression: nothing but to answer the calls of backed rules
by loads. The load of a call without arguments reads index zero, so the one fact needed of numbers is that
zero stands for the index zero.
-/

namespace ArrayPlan

namespace BackingTable

theorem arrayAt?_append {t : BackingTable} {later : List (String × BackingEntry)} {index : Nat}
    (h : ∀ e ∈ later, index < e.2.visibleFrom) (rule : String) :
    (BackingTable.mk (t.entries ++ later)).arrayAt? rule index = t.arrayAt? rule index := by
  unfold arrayAt? find?
  rw [List.lookup_append]
  cases ht : t.entries.lookup rule with
  | some entry => rfl
  | none =>
    cases hl : later.lookup rule with
    | none => rfl
    | some entry =>
      obtain ⟨before, after, hsplit, _⟩ := List.lookup_eq_some_iff.1 hl
      have hlater := h (rule, entry) (by simp [hsplit])
      simp only [Option.none_or, if_neg (Nat.not_le.2 hlater)]

end BackingTable

namespace Expr

def loadIndex (args : List Expr) : List Expr :=
  if args.isEmpty then [.int 0] else args

section Forms

variable (t : BackingTable) (i : Nat)

theorem loadBacked_call (rule : String) (args : List Expr) :
    (call rule args).loadBacked t i =
      match t.arrayAt? rule i with
      | some array => load array (loadIndex (rebuildAll (t.loadFor? i) args))
      | none => call rule (rebuildAll (t.loadFor? i) args) := by
  simp only [loadBacked, rebuild, BackingTable.loadFor?]
  cases t.arrayAt? rule i <;> rfl

theorem loadBacked_load (array : String) (index : List Expr) :
    (load array index).loadBacked t i = load array (rebuildAll (t.loadFor? i) index) :=
  rfl

theorem loadBacked_arith (op : ArithOp) (lhs rhs : Expr) :
    (arith op lhs rhs).loadBacked t i = arith op (lhs.loadBacked t i) (rhs.loadBacked t i) :=
  rfl

theorem loadBacked_compare (op : CompareOp) (lhs rhs : Expr) :
    (compare op lhs rhs).loadBacked t i = compare op (lhs.loadBacked t i) (rhs.loadBacked t i) :=
  rfl

theorem loadBacked_sum (vars : List String) (body : Expr) :
    (sum vars body).loadBacked t i = sum vars (body.loadBacked t i) :=
  rfl

theorem rebuildAll_cons (e : Expr) (es : List Expr) :
    rebuildAll (t.loadFor? i) (e :: es) = e.loadBacked t i :: rebuildAll (t.loadFor? i) es :=
  rfl

theorem rebuildAll_eq_map (es : List Expr) :
    rebuildAll (t.loadFor? i) es = es.map (loadBacked t i) := by
  induction es with
  | nil => rfl
  | cons e es ih => rw [rebuildAll_cons, ih, List.map_cons]

end Forms

section Within

variable {rules rules' arrays arrays' vars : String → Prop} {t : BackingTable} {i : Nat}

mutual

theorem Within.loadBacked (ha : ∀ a, arrays a → arrays' a)
    (hkeep : ∀ r, rules r → t.arrayAt? r i = none → rules' r)
    (hload : ∀ r a, rules r → t.arrayAt? r i = some a → arrays' a) :
    ∀ {e : Expr}, e.Within rules arrays vars → (e.loadBacked t i).Within rules' arrays' vars
  | .int _, _ => trivial
  | .real _, _ => trivial
  | .var _, _ => trivial
  | .call r args, h => by
    have hargs := WithinAll.rebuildAll ha hkeep hload h.2
    rw [loadBacked_call]
    cases hr : t.arrayAt? r i with
    | none => exact ⟨hkeep r h.1 hr, hargs⟩
    | some a =>
      refine ⟨hload r a h.1 hr, ?_⟩
      unfold loadIndex
      split
      · exact ⟨trivial, trivial⟩
      · exact hargs
  | .load a index, h => ⟨ha a h.1, WithinAll.rebuildAll ha hkeep hload h.2⟩
  | .arith _ _ _, h => ⟨Within.loadBacked ha hkeep hload h.1, Within.loadBacked ha hkeep hload h.2⟩
  | .compare _ _ _, h => ⟨Within.loadBacked ha hkeep hload h.1, Within.loadBacked ha hkeep hload h.2⟩
  | .sum _ _, h => ⟨h.1, Within.loadBacked ha hkeep hload h.2⟩

theorem WithinAll.rebuildAll (ha : ∀ a, arrays a → arrays' a)
    (hkeep : ∀ r, rules r → t.arrayAt? r i = none → rules' r)
    (hload : ∀ r a, rules r → t.arrayAt? r i = some a → arrays' a) :
    ∀ {es : List Expr}, WithinAll rules arrays vars es →
      WithinAll rules' arrays' vars (Expr.rebuildAll (t.loadFor? i) es)
  | [], _ => trivial
  | _ :: _, h => ⟨Within.loadBacked ha hkeep hload h.1, WithinAll.rebuildAll ha hkeep hload h.2⟩

end

end Within

end Expr

theorem Statement.target_loadBacked {s : Statement} {t : BackingTable} {i : Nat} {array : String} {index : List Expr}
    (htarget : s.target = .load array index) :
    (s.loadBacked t i).target = .load array (index.map (Expr.loadBacked t i)) := by
  rw [loadBacked, htarget, Expr.loadBacked_load, Expr.rebuildAll_eq_map]

namespace Interpretation

variable {α : Type} [Scalar α]

def elementIndex (index : List Int) : List Int :=
  if index = [] then [0] else index

def loadedIndex (α : Type) [Scalar α] (index : List Int) : List Int :=
  if index = [] then [Scalar.toIndex (Scalar.ofInt 0 : α)] else index

theorem loadedIndex_eq (hzero : Scalar.toIndex (Scalar.ofInt 0 : α) = 0) (index : List Int) :
    loadedIndex α index = elementIndex index := by
  rw [loadedIndex, hzero, elementIndex]

/-- Calls of the rules backed as seen at `i` are answered by loads. -/
def redirect (I : Interpretation α) (t : BackingTable) (i : Nat) : Interpretation α :=
  { I with
    call := fun rule index =>
      match t.arrayAt? rule i with
      | some array => I.load array (loadedIndex α index)
      | none => I.call rule index }

theorem values?_loadIndex (I : Interpretation α) (array : String) (args : List Expr) (env : Env) :
    ((I.values? (Expr.loadIndex args) env).bind fun vs => I.load array (vs.map Scalar.toIndex)) =
      (I.values? args env).bind fun vs => I.load array (loadedIndex α (vs.map Scalar.toIndex)) := by
  cases args with
  | nil => rfl
  | cons e es =>
    have hne : Expr.loadIndex (e :: es) = e :: es := rfl
    rw [hne]
    cases hvs : I.values? (e :: es) env with
    | none => rfl
    | some vs =>
      have hlen := length_values? hvs
      have hvs_ne : vs.map Scalar.toIndex ≠ [] := by
        intro hnil
        rw [List.map_eq_nil_iff.1 hnil] at hlen
        cases hlen
      simp only [Option.bind_some, loadedIndex, if_neg hvs_ne]

section Rewriting

variable (I : Interpretation α) (t : BackingTable) (i : Nat)

mutual

theorem value?_loadBacked :
    ∀ (e : Expr) (env : Env), I.value? (e.loadBacked t i) env = (I.redirect t i).value? e env
  | .int _, _ => rfl
  | .real _, _ => rfl
  | .var _, _ => rfl
  | .call r args, env => by
    have hargs := values?_loadBacked args env
    rw [Expr.loadBacked_call]
    cases hr : t.arrayAt? r i with
    | none => simp only [value?, hargs, redirect, hr]
    | some a =>
      simp only [value?]
      rw [values?_loadIndex, hargs]
      simp only [redirect, hr]
  | .load a index, env => by
    rw [Expr.loadBacked_load]
    simp only [value?, values?_loadBacked index env]
    rfl
  | .arith op lhs rhs, env => by
    rw [Expr.loadBacked_arith]
    simp only [value?, value?_loadBacked lhs env, value?_loadBacked rhs env]
  | .compare op lhs rhs, env => by
    rw [Expr.loadBacked_compare]
    simp only [value?, value?_loadBacked lhs env, value?_loadBacked rhs env]
  | .sum vars body, env => by
    rw [Expr.loadBacked_sum]
    simp only [value?, value?_loadBacked body]
    rfl

theorem values?_loadBacked :
    ∀ (es : List Expr) (env : Env),
      I.values? (Expr.rebuildAll (t.loadFor? i) es) env = (I.redirect t i).values? es env
  | [], _ => rfl
  | e :: es, env => by
    rw [Expr.rebuildAll_cons]
    simp only [values?, value?_loadBacked e env, values?_loadBacked es env]

end

theorem position?_loadBacked (index : List Expr) (env : Env) :
    I.position? (index.map (Expr.loadBacked t i)) env = (I.redirect t i).position? index env := by
  rw [position?, position?, ← Expr.rebuildAll_eq_map, values?_loadBacked I t i]

end Rewriting

end Interpretation

end ArrayPlan
