import ArrayPlan.Proofs.Causality

/-!
Laws of loading backed rules. The calls that stay are those of rules without a visible array, the arrays of the
others come to the loads, and no free variable appears, disappears or moves. A table only grows and an entry stays,
so to load again with more entries, seen later, is to load with these alone.
-/

namespace ArrayPlan

namespace BackingTable

def insertAll (t : BackingTable) (entries : List (String × BackingEntry)) : BackingTable :=
  entries.foldl (fun t e => t.insert e.1 e.2.array e.2.visibleFrom) t

variable {t : BackingTable} {rule array : String} {entry : BackingEntry} {i j : Nat}

theorem find?_insert (h : t.find? rule = some entry) (other array : String) (visibleFrom : Nat) :
    (t.insert other array visibleFrom).find? rule = some entry := by
  rw [insert]
  split
  · exact h
  · rw [find?] at h ⊢
    rw [List.lookup_append, h]
    rfl

theorem find?_insertAll (h : t.find? rule = some entry) (entries : List (String × BackingEntry)) :
    (t.insertAll entries).find? rule = some entry := by
  induction entries generalizing t with
  | nil => exact h
  | cons e entries ih => exact ih (find?_insert h e.1 e.2.array e.2.visibleFrom)

theorem arrayAt?_eq_some_iff :
    t.arrayAt? rule i = some array ↔
      ∃ entry, t.find? rule = some entry ∧ entry.visibleFrom ≤ i ∧ entry.array = array := by
  rw [arrayAt?]
  cases t.find? rule <;> simp

theorem arrayAt?_insertAll (h : t.arrayAt? rule i = some array) (hij : i ≤ j)
    (entries : List (String × BackingEntry)) : (t.insertAll entries).arrayAt? rule j = some array := by
  obtain ⟨entry, hfind, hvisible, harray⟩ := arrayAt?_eq_some_iff.1 h
  exact arrayAt?_eq_some_iff.2 ⟨entry, find?_insertAll hfind entries, Nat.le_trans hvisible hij, harray⟩

end BackingTable

namespace Expr

variable {arrayOf later : String → Option String}

mutual

theorem freeOccurrences_withLoads (bound : List String) : ∀ e : Expr,
    (e.withLoads arrayOf).freeOccurrences bound = e.freeOccurrences bound
  | .int _ => rfl
  | .real _ => rfl
  | .var _ => rfl
  | .call rule args => by
    have hargs := freeOccurrencesAll_withLoadsAll bound args
    rw [withLoads]
    cases arrayOf rule with
    | none => exact hargs
    | some array =>
      cases args with
      | nil => rfl
      | cons arg args => exact hargs
  | .load _ index => freeOccurrencesAll_withLoadsAll bound index
  | .arith _ lhs rhs => by
    rw [withLoads, freeOccurrences, freeOccurrences_withLoads bound lhs, freeOccurrences_withLoads bound rhs,
      freeOccurrences]
  | .compare _ lhs rhs => by
    rw [withLoads, freeOccurrences, freeOccurrences_withLoads bound lhs, freeOccurrences_withLoads bound rhs,
      freeOccurrences]
  | .sum vars body => freeOccurrences_withLoads (bound ++ vars) body

theorem freeOccurrencesAll_withLoadsAll (bound : List String) : ∀ es : List Expr,
    freeOccurrencesAll bound (withLoadsAll arrayOf es) = freeOccurrencesAll bound es
  | [] => rfl
  | e :: es => by
    rw [withLoadsAll, freeOccurrencesAll, freeOccurrences_withLoads bound e, freeOccurrencesAll_withLoadsAll bound es,
      freeOccurrencesAll]

end

theorem freeVars_withLoads (e : Expr) : (e.withLoads arrayOf).freeVars = e.freeVars := by
  rw [freeVars, freeOccurrences_withLoads, freeVars]

mutual

theorem withLoads_withLoads (h : ∀ rule array, arrayOf rule = some array → later rule = some array) :
    ∀ e : Expr, (e.withLoads arrayOf).withLoads later = e.withLoads later
  | .int _ => rfl
  | .real _ => rfl
  | .var _ => rfl
  | .call rule args => by
    have hargs := withLoadsAll_withLoadsAll h args
    rw [withLoads]
    cases hrule : arrayOf rule with
    | none =>
      have hempty : (withLoadsAll arrayOf args).isEmpty = args.isEmpty := by cases args <;> rfl
      dsimp only
      rw [withLoads, withLoads, hempty, hargs]
    | some array =>
      dsimp only
      rw [withLoads, withLoads, h rule array hrule]
      cases args with
      | nil => rfl
      | cons arg args => exact congrArg (load array) hargs
  | .load array index => congrArg (load array) (withLoadsAll_withLoadsAll h index)
  | .arith op lhs rhs => by
    rw [withLoads, withLoads, withLoads, withLoads_withLoads h lhs, withLoads_withLoads h rhs]
  | .compare op lhs rhs => by
    rw [withLoads, withLoads, withLoads, withLoads_withLoads h lhs, withLoads_withLoads h rhs]
  | .sum vars body => congrArg (sum vars) (withLoads_withLoads h body)

theorem withLoadsAll_withLoadsAll (h : ∀ rule array, arrayOf rule = some array → later rule = some array) :
    ∀ es : List Expr, withLoadsAll later (withLoadsAll arrayOf es) = withLoadsAll later es
  | [] => rfl
  | e :: es => by
    rw [withLoadsAll, withLoadsAll, withLoads_withLoads h e, withLoadsAll_withLoadsAll h es, withLoadsAll]

end

/-- Loading backed rules replaces all calls that it should and nothing else, keeps the free variables in their order,
and is absorbed by loading with a table that has grown, seen from a later index. -/
theorem loadBacked_laws (t : BackingTable) (i : Nat) (e : Expr) :
    (∀ rule, rule ∈ (e.loadBacked t i).calls ↔ rule ∈ e.calls ∧ t.arrayAt? rule i = none) ∧
    (∀ array, array ∈ (e.loadBacked t i).loads ↔
      array ∈ e.loads ∨ ∃ rule ∈ e.calls, t.arrayAt? rule i = some array) ∧
    (e.loadBacked t i).freeVars = e.freeVars ∧
    (∀ (entries : List (String × BackingEntry)) (j : Nat), i ≤ j →
      (e.loadBacked t i).loadBacked (t.insertAll entries) j = e.loadBacked (t.insertAll entries) j) ∧
    (e.loadBacked t i).loadBacked t i = e.loadBacked t i := by
  simp only [loadBacked_eq_withLoads]
  refine ⟨fun rule => mem_calls_withLoads, fun array => mem_loads_withLoads, freeVars_withLoads e,
    fun entries j hij => ?_, withLoads_withLoads (fun _ _ h => h) e⟩
  exact withLoads_withLoads (fun rule array h => BackingTable.arrayAt?_insertAll h hij entries) e

def nested : Expr :=
  .arith .add (.sum ["j"] (.call "inner" [.call "outer" [.var "i", .var "j"]])) (.call "outer" [.var "j", .var "i"])

def innerStored : BackingTable :=
  ⟨[("inner", ⟨"arr0", 0⟩)]⟩

/-- The outer rule is stored later and seen from the index three on; another array for the inner one is not taken. -/
theorem loadBacked_laws_nested :
    (nested.loadBacked innerStored 2).loadBacked
      (innerStored.insertAll [("inner", ⟨"arr1", 0⟩), ("outer", ⟨"arr2", 3⟩)]) 3 =
        .arith .add (.sum ["j"] (.load "arr0" [.load "arr2" [.var "i", .var "j"]]))
          (.load "arr2" [.var "j", .var "i"]) ∧
    (nested.loadBacked innerStored 2).freeVars = ["i", "j"] := by
  obtain ⟨_, _, hfree, hagain, _⟩ := loadBacked_laws innerStored 2 nested
  refine ⟨(hagain [("inner", ⟨"arr1", 0⟩), ("outer", ⟨"arr2", 3⟩)] 3 (by decide)).trans ?_, hfree.trans ?_⟩
  · rfl
  · decide +kernel

end Expr

end ArrayPlan
