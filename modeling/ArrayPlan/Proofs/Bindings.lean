import ArrayPlan.Execution.Enumeration

/-!
Lookup in bindings. Binding several names at once gives each of them its value and leaves all other names
alone, when the names are distinct.
-/

namespace ArrayPlan.Env

theorem lookup_filter_ne (bindings : List (String × Int)) {name other : String} (h : other ≠ name) :
    (bindings.filter fun b => b.1 ≠ name).lookup other = bindings.lookup other := by
  induction bindings with
  | nil => rfl
  | cons b bindings ih =>
    obtain ⟨bound, v⟩ := b
    by_cases hb : bound = name
    · have hne : (other == bound) = false := by simpa [hb] using h
      rw [List.filter_cons_of_neg (by simpa using hb), List.lookup_cons, hne, ih]
    · rw [List.filter_cons_of_pos (by simpa using hb), List.lookup_cons, List.lookup_cons, ih]

@[simp] theorem value?_bind_self (env : Env) (name : String) (v : Int) :
    (env.bind name v).value? name = some v := by
  simp [bind, value?]

theorem value?_bind_of_ne (env : Env) {name other : String} (v : Int) (h : other ≠ name) :
    (env.bind name v).value? other = env.value? other := by
  have hne : (other == name) = false := by simpa using h
  simp only [bind, value?, unbind, List.lookup_cons, hne]
  exact lookup_filter_ne env.bindings h

theorem value?_bind (env : Env) (name other : String) (v : Int) :
    (env.bind name v).value? other = if other = name then some v else env.value? other := by
  split
  · rename_i h
    rw [h, value?_bind_self]
  · rename_i h
    exact value?_bind_of_ne env v h

theorem unbind_eq_self {env : Env} {name : String} (h : env.value? name = none) :
    env.unbind name = env := by
  have hall : ∀ b ∈ env.bindings, b.1 ≠ name := by
    intro b hb hname
    rw [value?, List.lookup_eq_none_iff] at h
    simpa [hname] using h b hb
  have : env.bindings.filter (fun b => b.1 ≠ name) = env.bindings :=
    List.filter_eq_self.2 (by simpa using hall)
  simp only [unbind, this]

@[simp] theorem bindAll_cons (env : Env) (b : String × Int) (bindings : List (String × Int)) :
    env.bindAll (b :: bindings) = (env.bind b.1 b.2).bindAll bindings :=
  rfl

theorem value?_bindAll_of_not_mem {bindings : List (String × Int)} (env : Env) {name : String}
    (h : name ∉ bindings.map Prod.fst) : (env.bindAll bindings).value? name = env.value? name := by
  induction bindings generalizing env with
  | nil => rfl
  | cons b bindings ih =>
    obtain ⟨hb, hrest⟩ := List.ne_and_not_mem_of_not_mem_cons h
    rw [bindAll_cons, ih _ hrest, value?_bind_of_ne env b.2 hb]

theorem value?_bindAll_of_mem {bindings : List (String × Int)} (env : Env)
    (hnodup : (bindings.map Prod.fst).Nodup) {name : String} {v : Int} (h : (name, v) ∈ bindings) :
    (env.bindAll bindings).value? name = some v := by
  induction bindings generalizing env with
  | nil => cases h
  | cons b bindings ih =>
    obtain ⟨hb, hrest⟩ := List.nodup_cons.1 hnodup
    rw [bindAll_cons]
    rcases List.mem_cons.1 h with rfl | h
    · rw [value?_bindAll_of_not_mem _ hb, value?_bind_self]
    · exact ih _ hrest h

end ArrayPlan.Env
