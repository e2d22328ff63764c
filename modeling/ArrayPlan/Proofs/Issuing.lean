import ArrayPlan.Proofs.Supply

/-!
Issued names. The kinds of names share one set, and a candidate of one kind may read like a candidate of another or like
a reserved name, so the search for a fresh name can pass over many candidates. It ends because candidates of one kind
differ and the set is finite: each candidate passed over is a taken name, and there are no more of these than names were
handed out. Whatever calls are made in whatever order, no name is handed out twice.
-/

namespace ArrayPlan

namespace NameSupply

theorem firstFree_le (stem : String) (taken : Std.TreeSet String) (number : Nat) :
    firstFree stem taken number ≤ number + taken.size := by
  fun_induction firstFree stem taken number with
  | case1 taken number h ih =>
    have hsmaller := size_erase_lt h
    omega
  | case2 taken number h => omega

theorem Draws.size_eq {s s' : NameSupply} {issued : List String} (h : Draws s s' issued) :
    s'.size = s.size + issued.length := by
  have hnodup : ∀ taken : Std.TreeSet String, taken.toList.Nodup := fun taken =>
    taken.distinct_toList.imp fun hab heq => hab (Std.compare_eq_iff_eq.2 heq)
  have hperm : s'.taken.toList.Perm (s.taken.toList ++ issued) := by
    refine (List.perm_ext_iff_of_nodup (hnodup _) (List.nodup_append.2 ⟨hnodup _, h.nodup, ?_⟩)).2 fun name => ?_
    · rintro a ha b hb rfl
      exact h.unused a hb (Std.TreeSet.mem_toList.1 ha)
    · rw [List.mem_append, Std.TreeSet.mem_toList, Std.TreeSet.mem_toList, h.taken]
  have hlength := hperm.length_eq
  rwa [List.length_append, Std.TreeSet.length_toList, Std.TreeSet.length_toList] at hlength

end NameSupply

inductive NameCall where
  | fresh (kind : NameKind)
  | freshIndices (n : Nat)
  | reserve (name : String)

namespace NameSupply

def answer (s : NameSupply) : NameCall → List String × NameSupply
  | .fresh kind => ([(s.fresh kind).1], (s.fresh kind).2)
  | .freshIndices n => s.freshList .index n
  | .reserve name =>
    match s.reserve? name with
    | some s => ([name], s)
    | none => ([], s)

def answers (s : NameSupply) : List NameCall → List String × NameSupply
  | [] => ([], s)
  | call :: calls => ((s.answer call).1 ++ ((s.answer call).2.answers calls).1, ((s.answer call).2.answers calls).2)

theorem answer_draws (s : NameSupply) (call : NameCall) : Draws s (s.answer call).2 (s.answer call).1 := by
  cases call with
  | fresh kind => exact fresh_draws s kind
  | freshIndices n => exact freshList_draws .index n s
  | reserve name =>
    rw [answer]
    cases hname : s.reserve? name with
    | some s' => exact reserve?_draws hname
    | none => exact .refl s

theorem answers_draws (s : NameSupply) (calls : List NameCall) : Draws s (s.answers calls).2 (s.answers calls).1 := by
  induction calls generalizing s with
  | nil => exact .refl s
  | cons call calls ih => exact (answer_draws s call).trans (ih (s.answer call).2)

theorem reserve?_isSome_iff (s : NameSupply) (name : String) :
    (s.reserve? name).isSome ↔ name ≠ "" ∧ name ∉ s.taken := by
  rw [reserve?]
  split
  · rename_i hbad
    simp [← not_or, hbad]
  · rename_i hfree
    simpa [← not_or] using hfree

/-- After any calls on a new supply with any stems, the names handed out are all different, the supply knows exactly
these, and counts them. The next fresh name is none of them, and is found after as many candidates as there are names at
most, each passed over because it was handed out. A name can be reserved if it is not empty and none of them, and is
refused without a change otherwise. -/
theorem answers_unique (stems : PerKind String) (calls : List NameCall) :
    let names := ((ofStems stems).answers calls).1
    let s := ((ofStems stems).answers calls).2
    names.Nodup ∧ (∀ name, s.isTaken name = true ↔ name ∈ names) ∧ s.size = names.length ∧
    (∀ kind, ∃ number, s.next.get kind ≤ number ∧ number ≤ s.next.get kind + names.length ∧
      (∀ k, s.next.get kind ≤ k → k < number → candidate (stems.get kind) k ∈ names) ∧
      (s.fresh kind).1 = candidate (stems.get kind) number ∧ (s.fresh kind).1 ∉ names ∧
      (s.fresh kind).2.next.get kind = number + 1) ∧
    (∀ n, (s.freshList .index n).1.length = n ∧ (names ++ (s.freshList .index n).1).Nodup) ∧
    ∀ name, ((s.reserve? name).isSome ↔ name ≠ "" ∧ name ∉ names) ∧
      ((s.reserve? name).isSome = false → s.answer (.reserve name) = ([], s)) := by
  intro names s
  have hdraws : Draws (ofStems stems) s names := answers_draws (ofStems stems) calls
  have htaken : ∀ name, name ∈ s.taken ↔ name ∈ names := by
    intro name
    rw [hdraws.taken]
    simp [ofStems]
  have hstems : s.stems = stems := hdraws.stems
  have hsize : s.size = names.length := by
    rw [hdraws.size_eq]
    simp [ofStems, size]
  refine ⟨hdraws.nodup, fun name => ?_, hsize, fun kind => ?_, fun n => ?_, fun name => ⟨?_, fun hrefused => ?_⟩⟩
  · rw [isTaken, Std.TreeSet.contains_iff_mem, htaken]
  · refine ⟨firstFree (stems.get kind) s.taken (s.next.get kind), le_firstFree _ _ _, ?_, fun k hlow hhigh => ?_, ?_, ?_, ?_⟩
    · exact hsize ▸ firstFree_le _ _ _
    · exact (htaken _).1 (candidate_mem_of_lt_firstFree hlow hhigh)
    · rw [← hstems]
      rfl
    · exact fun hname => (fresh_draws s kind).unused _ (List.mem_singleton_self _) ((htaken _).2 hname)
    · rw [← hstems]
      cases kind <;> rfl
  · exact ⟨length_freshList .index n s, (hdraws.trans (freshList_draws .index n s)).nodup⟩
  · rw [reserve?_isSome_iff, htaken]
  · have hnone : s.reserve? name = none := by simpa using hrefused
    rw [answer, hnone]

def likeStems : PerKind String :=
  ⟨"a", "a1", "a"⟩

/-- Two candidates of the last variable are passed over: one was reserved, one is the name of the rule. -/
theorem answers_unique_likeStems :
    let calls : List NameCall := [.reserve "a9", .fresh .rule, .freshIndices 9, .reserve "a10", .fresh .array, .fresh .index]
    ((ofStems likeStems).answers calls).1 =
      ["a9", "a10", "a0", "a1", "a2", "a3", "a4", "a5", "a6", "a7", "a8", "a11", "a12"] ∧
    ((ofStems likeStems).answers calls).1.Nodup := by
  intro calls
  exact ⟨by decide +kernel, (answers_unique likeStems calls).1⟩

end NameSupply

end ArrayPlan
