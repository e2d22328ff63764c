import ArrayPlan.Proofs.Realization

/-!
Lowered kernels, read off the plan. A kernel evaluates rewritten rules and statements. They have the values that the
rules and statements of the plan have, when the call of a rule with an array that is seen is answered by a load of it.
-/

namespace ArrayPlan

variable {α : Type} [Scalar α]

/-- Expressions as they are read at an index, before calls are turned into loads. -/
def Kernel.readingAt (k : Kernel) (parameters : Env) (t : BackingTable) (m : Memory α) (i : Nat) : Interpretation α :=
  (k.reading parameters m.load?).redirect t i

theorem Interpretation.value?_call_eq {I : Interpretation α} (rule : String) (args : List Expr) (env : Env) :
    I.value? (.call rule args) env = (I.position? args env).bind (I.call rule) := by
  rw [value?, position?, Option.bind_map]
  rfl

theorem Interpretation.value?_load_eq {I : Interpretation α} (array : String) (index : List Expr) (env : Env) :
    I.value? (.load array index) env = (I.position? index env).bind (I.load array) := by
  rw [value?, position?, Option.bind_map]
  rfl

namespace Kernel

variable {k : Kernel} {parameters : Env} {t : BackingTable} {m m' : Memory α} {i : Nat} {rule array : String}

theorem points_readingAt (vars : List String) (env : Env) :
    (k.readingAt parameters t m i).points vars env = (pointsOver k.domains vars env).toOption := by
  rw [readingAt, Interpretation.redirect, reading_points]

theorem load_readingAt : (k.readingAt parameters t m i).load = m.load? := by
  rw [readingAt, Interpretation.redirect, reading_load]

theorem call_readingAt_of_seen (hseen : t.arrayAt? rule i = some array) (index : List Int) :
    (k.readingAt parameters t m i).call rule index = m.load? array (Interpretation.loadedIndex α index) := by
  simp only [readingAt, Interpretation.redirect, hseen, reading_load]

theorem call_readingAt_of_unseen (hunseen : t.arrayAt? rule i = none) (index : List Int) :
    (k.readingAt parameters t m i).call rule index = (k.reading parameters m.load?).call rule index := by
  simp only [readingAt, Interpretation.redirect, hunseen]

theorem outcome?_loadBacked {s : Statement} {index : List Expr} (htarget : s.target = .load array index) (point : Env) :
    k.outcome? parameters m.load? (s.loadBacked t i) point =
      ((k.readingAt parameters t m i).value? s.value point).bind fun v =>
        ((k.readingAt parameters t m i).position? index point).map fun position => (array, position, v) := by
  have htarget' := Statement.target_loadBacked (t := t) (i := i) htarget
  rw [outcome?, htarget']
  simp only [Interpretation.position?_loadBacked]
  rw [Statement.loadBacked, Interpretation.value?_loadBacked]
  rfl

theorem storeAt_loadBacked_iff (h : Layered k.rules) {s : Statement} {index : List Expr}
    (htarget : s.target = .load array index) {point : Env} :
    k.storeAt parameters (s.loadBacked t i) m point = .ok m' ↔ ∃ position v,
      (k.readingAt parameters t m i).position? index point = some position ∧
        (k.readingAt parameters t m i).value? s.value point = some v ∧ m.store array position v = .ok m' := by
  rw [storeAt_ok_iff h, outcome?_loadBacked htarget]
  constructor
  · rintro ⟨array', position, v, hvalues, hstore⟩
    obtain ⟨v', hv', hvalues⟩ := Option.bind_eq_some_iff.1 hvalues
    obtain ⟨position', hposition', hsame⟩ := Option.map_eq_some_iff.1 hvalues
    cases hsame
    exact ⟨position, v, hposition', hv', hstore⟩
  · rintro ⟨position, v, hposition, hv, hstore⟩
    exact ⟨array, position, v, by rw [hposition, hv]; rfl, hstore⟩

end Kernel

namespace Plan.Lowers

variable {p p' : Plan} {outputs : List Handle} {os : List Realization} {k : Kernel} {parameters : Env} {m : Memory α}

theorem call_reading (hp : p.WellFormed) (h : p.Lowers outputs os k p') {j : Nat} {r : Rule}
    (hr : p.rules.rules[j]? = some r) (index : List Int) :
    (k.reading parameters m.load?).call r.name index =
      if r.params.length = index.length then
        (k.readingAt parameters p'.backing m j).value? r.body (parameters.bindAll (r.params.zip index))
      else none := by
  have hrule : k.rules[j]? = some (r.loadBacked p'.backing j) := by
    rw [h.rules, List.getElem?_mapIdx, hr]
    rfl
  rw [show r.name = (r.loadBacked p'.backing j).name from rfl, Kernel.call_reading _ _ (h.layered hp) hrule]
  simp only [Rule.loadBacked, Interpretation.value?_loadBacked]
  rfl

end Plan.Lowers

end ArrayPlan
