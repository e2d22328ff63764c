import ArrayPlan.NameSupply
import Std.Data.String.ToNat

/-!
Fresh names. A supply never issues a taken name, and what it issues is taken from then on. `Draws` says this
of any number of names drawn one after the other; later proofs about names use nothing else.
-/

namespace ArrayPlan.NameSupply

theorem candidate_injective (stem : String) {m n : Nat} (h : candidate stem m = candidate stem n) : m = n :=
  Nat.repr_injective ((String.append_right_inj stem).1 h)

theorem le_firstFree (stem : String) (taken : Std.TreeSet String) (number : Nat) :
    number ≤ firstFree stem taken number := by
  fun_induction firstFree stem taken number with
  | case1 taken number h ih => omega
  | case2 taken number h => exact Nat.le_refl number

/-- Candidates passed over are struck from the set during the search. That cannot let the result through: it
is a later candidate, hence another name. -/
theorem candidate_firstFree_not_mem (stem : String) (taken : Std.TreeSet String) (number : Nat) :
    candidate stem (firstFree stem taken number) ∉ taken := by
  fun_induction firstFree stem taken number with
  | case1 taken number h ih =>
    intro hmem
    apply ih
    refine Std.TreeSet.mem_erase.2 ⟨fun heq => ?_, hmem⟩
    have hlater := le_firstFree stem (taken.erase (candidate stem number)) (number + 1)
    have hsame := candidate_injective stem (Std.LawfulEqCmp.eq_of_compare heq)
    omega
  | case2 taken number h => exact h

theorem candidate_mem_of_lt_firstFree {stem : String} {taken : Std.TreeSet String} {number n : Nat} (hle : number ≤ n)
    (hlt : n < firstFree stem taken number) : candidate stem n ∈ taken := by
  fun_induction firstFree stem taken number with
  | case1 taken number h ih =>
    rcases Nat.eq_or_lt_of_le hle with rfl | hle
    · exact h
    · exact (Std.TreeSet.mem_erase.1 (ih hle hlt)).2
  | case2 taken number h => omega

/-- From `s` to `s'` exactly the names in `issued` were drawn, and none of them was taken. -/
structure Draws (s s' : NameSupply) (issued : List String) : Prop where
  stems : s'.stems = s.stems
  nodup : issued.Nodup
  unused : ∀ name ∈ issued, name ∉ s.taken
  taken : ∀ name, name ∈ s'.taken ↔ name ∈ s.taken ∨ name ∈ issued

namespace Draws

variable {s s' s'' : NameSupply} {issued later : List String}

theorem refl (s : NameSupply) : Draws s s [] :=
  ⟨rfl, .nil, by simp, by simp⟩

theorem trans (h : Draws s s' issued) (h' : Draws s' s'' later) : Draws s s'' (issued ++ later) where
  stems := h'.stems.trans h.stems
  nodup := by
    refine List.nodup_append.2 ⟨h.nodup, h'.nodup, fun a ha b hb hab => ?_⟩
    exact h'.unused b hb ((h.taken b).2 (.inr (hab ▸ ha)))
  unused name hname := by
    rcases List.mem_append.1 hname with hname | hname
    · exact h.unused name hname
    · exact fun hmem => h'.unused name hname ((h.taken name).2 (.inl hmem))
  taken name := by
    rw [h'.taken, h.taken, List.mem_append, or_assoc]

theorem mem_taken (h : Draws s s' issued) {name : String} (hname : name ∈ issued) : name ∈ s'.taken :=
  (h.taken name).2 (.inr hname)

theorem taken_mono (h : Draws s s' issued) {name : String} (hname : name ∈ s.taken) : name ∈ s'.taken :=
  (h.taken name).2 (.inl hname)

theorem ne_of_taken (h : Draws s s' issued) {a b : String} (ha : a ∈ issued) (hb : b ∈ s.taken) : a ≠ b :=
  fun hab => h.unused a ha (hab ▸ hb)

end Draws

theorem mem_insert_taken {taken : Std.TreeSet String} {name other : String} :
    other ∈ taken.insert name ↔ other ∈ taken ∨ other = name := by
  rw [Std.TreeSet.mem_insert, Std.compare_eq_iff_eq, or_comm, eq_comm]

theorem fresh_draws (s : NameSupply) (kind : NameKind) :
    Draws s (s.fresh kind).2 [(s.fresh kind).1] where
  stems := rfl
  nodup := by simp
  unused name hname := by
    rw [List.mem_singleton.1 hname]
    exact candidate_firstFree_not_mem _ _ _
  taken name := by
    rw [List.mem_singleton]
    exact mem_insert_taken

theorem freshList_draws (kind : NameKind) (n : Nat) (s : NameSupply) :
    Draws s (s.freshList kind n).2 (s.freshList kind n).1 := by
  induction n generalizing s with
  | zero => exact .refl s
  | succ n ih => exact (fresh_draws s kind).trans (ih (s.fresh kind).2)

theorem length_freshList (kind : NameKind) (n : Nat) (s : NameSupply) :
    (s.freshList kind n).1.length = n := by
  induction n generalizing s with
  | zero => rfl
  | succ n ih => exact congrArg (· + 1) (ih (s.fresh kind).2)

def draw (s : NameSupply) (kinds : List NameKind) : NameSupply :=
  kinds.foldl (fun s kind => (s.fresh kind).2) s

theorem draw_append (s : NameSupply) (kinds later : List NameKind) : s.draw (kinds ++ later) = (s.draw kinds).draw later :=
  List.foldl_append

theorem draw_replicate (s : NameSupply) (kind : NameKind) (n : Nat) :
    s.draw (List.replicate n kind) = (s.freshList kind n).2 := by
  induction n generalizing s with
  | zero => rfl
  | succ n ih => exact ih (s.fresh kind).2

def issue (s : NameSupply) : List NameKind → List String
  | [] => []
  | kind :: kinds => (s.fresh kind).1 :: (s.fresh kind).2.issue kinds

theorem issue_append (s : NameSupply) (kinds later : List NameKind) :
    s.issue (kinds ++ later) = s.issue kinds ++ (s.draw kinds).issue later := by
  induction kinds generalizing s with
  | nil => rfl
  | cons kind kinds ih => exact congrArg ((s.fresh kind).1 :: ·) (ih (s.fresh kind).2)

theorem length_issue (s : NameSupply) (kinds : List NameKind) : (s.issue kinds).length = kinds.length := by
  induction kinds generalizing s with
  | nil => rfl
  | cons kind kinds ih => exact congrArg (· + 1) (ih (s.fresh kind).2)

theorem issue_replicate (s : NameSupply) (kind : NameKind) (n : Nat) :
    s.issue (List.replicate n kind) = (s.freshList kind n).1 := by
  induction n generalizing s with
  | zero => rfl
  | succ n ih => exact congrArg ((s.fresh kind).1 :: ·) (ih (s.fresh kind).2)

theorem issue_draws (s : NameSupply) (kinds : List NameKind) : s.Draws (s.draw kinds) (s.issue kinds) := by
  induction kinds generalizing s with
  | nil => exact .refl s
  | cons kind kinds ih => exact (s.fresh_draws kind).trans (ih (s.fresh kind).2)

theorem reserve?_draws {s s' : NameSupply} {name : String} (h : s.reserve? name = some s') :
    Draws s s' [name] := by
  unfold reserve? at h
  split at h
  · cases h
  · rename_i hfree
    obtain ⟨_, hunused⟩ := not_or.1 hfree
    cases h
    refine ⟨rfl, by simp, ?_, fun other => ?_⟩
    · intro other hother
      rwa [List.mem_singleton.1 hother]
    · rw [List.mem_singleton]
      exact mem_insert_taken

end ArrayPlan.NameSupply
