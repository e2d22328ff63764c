import ArrayPlan.Execution.Scalar
import ArrayPlan.Proofs.Reachable
import Mathlib.Data.List.Forall2

/-!
Scripts. A script is a list of operations that refer to the results of earlier ones by their places. An
operation that refers to a place without a result, or that the plan refuses, has no result itself.
-/

namespace ArrayPlan

/-- Integers as the numbers of an execution; reals are truncated. -/
instance : Scalar Int where
  ofInt n := n
  ofReal x := (Double.ofFloat x).truncate
  add := (· + ·)
  sub := (· - ·)
  mul := (· * ·)
  div := (· / ·)
  floorDiv := Int.fdiv
  rem := (· % ·)
  lt a b := decide (a < b)
  le a b := decide (a ≤ b)
  toIndex n := n

/-- The results of the operations carried out so far, and the plan that they built. -/
structure Progress where
  results : List (Option Handle)
  plan : Plan

namespace Progress

def start (p : Plan) : Progress :=
  ⟨[], p⟩

def find (s : Progress) (place : Nat) : Except Unit Handle :=
  match s.results[place]? with
  | some (some h) => .ok h
  | _ => .error ()

def step (s : Progress) (op : Operation Nat) : Progress :=
  match op.resolve s.find with
  | .error () => ⟨s.results ++ [none], s.plan⟩
  | .ok op =>
    let (outcome, p) := op.perform.runOn s.plan
    ⟨s.results ++ [outcome.toOption], p⟩

def run (s : Progress) (ops : List (Operation Nat)) : Progress :=
  ops.foldl step s

def handles (s : Progress) : List Handle :=
  s.results.filterMap id

theorem mem_handles_of_find {s : Progress} {place : Nat} {h : Handle} (hfind : s.find place = .ok h) :
    h ∈ s.handles := by
  unfold find at hfind
  split at hfind
  · rename_i h' hget
    cases hfind
    exact List.mem_filterMap.2 ⟨some h, List.mem_of_getElem? hget, rfl⟩
  · cases hfind

end Progress

section Resolve

variable {ref ε : Type} {find : ref → Except ε Handle}

theorem exists_of_bind_eq_ok {β γ : Type} {x : Except ε β} {f : β → Except ε γ} {c : γ}
    (h : x >>= f = .ok c) : ∃ b, x = .ok b ∧ f b = .ok c := by
  cases x with
  | error e => cases h
  | ok b => exact ⟨b, rfl, h⟩

theorem map_eq_ok {β γ : Type} {x : Except ε β} {f : β → γ} {c : γ} (h : x.map f = .ok c) : ∃ b, x = .ok b ∧ f b = c := by
  cases x with
  | error e => cases h
  | ok b => exact ⟨b, rfl, Except.ok.inj h⟩

theorem forall₂_of_mapM_ok {β γ : Type} {f : β → Except ε γ} {bs : List β} {cs : List γ} (h : bs.mapM f = .ok cs) :
    List.Forall₂ (fun b c => f b = .ok c) bs cs := by
  induction bs generalizing cs with
  | nil =>
    cases h
    exact .nil
  | cons b bs ih =>
    rw [List.mapM_cons] at h
    obtain ⟨c, hc, h⟩ := exists_of_bind_eq_ok h
    obtain ⟨rest, hrest, h⟩ := exists_of_bind_eq_ok h
    cases h
    exact .cons hc (ih hrest)

theorem exists_mapM_eq_pure {m : Type → Type} [Monad m] [LawfulMonad m] {β β' γ : Type} {f : β → m γ} {S : β → β' → Prop}
    {R : β' → γ → Prop} {bs : List β} {bs' : List β'} (hall : List.Forall₂ S bs bs')
    (hone : ∀ b ∈ bs, ∀ b', S b b' → ∃ c, f b = pure c ∧ R b' c) :
    ∃ cs, bs.mapM f = pure cs ∧ List.Forall₂ R bs' cs := by
  induction hall with
  | nil => exact ⟨[], List.mapM_nil, .nil⟩
  | @cons b b' bs bs' hb _ ih =>
    obtain ⟨cs, hcs, hrest⟩ := ih fun b hmem => hone b (List.mem_cons_of_mem _ hmem)
    obtain ⟨c, hc, hfirst⟩ := hone b List.mem_cons_self b' hb
    exact ⟨c :: cs, by simp [List.mapM_cons, hc, hcs], .cons hfirst hrest⟩

theorem mapM_eq_ok_iff {β γ : Type} {f : β → Except ε γ} {bs : List β} {cs : List γ} :
    bs.mapM f = .ok cs ↔ List.Forall₂ (fun b c => f b = .ok c) bs cs := by
  refine ⟨forall₂_of_mapM_ok, fun h => ?_⟩
  obtain ⟨found, hfound, heq⟩ := exists_mapM_eq_pure (m := Except ε) (R := Eq) h fun _ _ c hb => ⟨c, hb, rfl⟩
  rw [List.forall₂_eq_eq_eq] at heq
  exact heq ▸ hfound

theorem mem_iff_of_mapM_ok {β γ : Type} {f : β → Except ε γ} {bs : List β} {cs : List γ} (h : bs.mapM f = .ok cs) {c : γ} :
    c ∈ cs ↔ ∃ b ∈ bs, f b = .ok c := by
  have hall := forall₂_of_mapM_ok h
  clear h
  induction hall with
  | nil => simp
  | cons hb _ ih => simp only [List.mem_cons, ih, exists_eq_or_imp, hb, Except.ok.injEq, eq_comm (a := c)]

theorem eq_map_of_mapM_ok {β γ : Type} {f : β → Except ε γ} {g : β → γ} (hone : ∀ b c, f b = .ok c → g b = c)
    {bs : List β} {cs : List γ} (h : bs.mapM f = .ok cs) : cs = bs.map g ∧ ∀ b ∈ bs, f b = .ok (g b) := by
  have hall := forall₂_of_mapM_ok h
  clear h
  induction hall with
  | nil => simp
  | @cons b c _ _ hb _ ih =>
    obtain ⟨rfl, hrest⟩ := ih
    obtain rfl := hone b c hb
    exact ⟨rfl, List.forall_mem_cons.2 ⟨hb, hrest⟩⟩

variable (find) in
inductive Operand.Resolves : Operand ref → Operand Handle → Prop where
  | literal (value : Literal) : Resolves (.literal value) (.literal value)
  | array {r : ref} {a : Handle} (ha : find r = .ok a) : Resolves (.array r) (.array a)

variable (find) in
inductive Index.Resolves : Index ref → Index Handle → Prop where
  | «at» (position : Nat) : Resolves (.at position) (.at position)
  | all : Resolves .all .all
  | slice (start stop step : Option Int) : Resolves (.slice start stop step) (.slice start stop step)
  | gather {r : ref} {a : Handle} (ha : find r = .ok a) : Resolves (.gather r) (.gather a)

variable (find) in
inductive Operation.Resolves : Operation ref → Operation Handle → Prop where
  | full {shape : ShapeSource ref} {extents : List Extent} (hshape : shape.resolve find = .ok extents) (value : Literal)
      (elementType : ElementType) : Resolves (.full shape value elementType) (.full (.extents extents) value elementType)
  | fill {shape : ShapeSource ref} {extents : List Extent} (hshape : shape.resolve find = .ok extents) (value : Literal) :
      Resolves (.fill shape value) (.fill (.extents extents) value)
  | range (stop : Extent) : Resolves (.range stop) (.range stop)
  | input {shape : ShapeSource ref} {extents : List Extent} (hshape : shape.resolve find = .ok extents)
      (elementType : ElementType) : Resolves (.input shape elementType) (.input (.extents extents) elementType)
  | inputNamed {shape : ShapeSource ref} {extents : List Extent} (name : String)
      (hshape : shape.resolve find = .ok extents) (elementType : ElementType) :
      Resolves (.inputNamed name shape elementType) (.inputNamed name (.extents extents) elementType)
  | combine (op : Operator) {r : ref} {a : Handle} {b : Operand ref} {b' : Operand Handle} (ha : find r = .ok a)
      (hb : b.Resolves find b') : Resolves (.combine op r b) (.combine op a b')
  | combineFrom (op : Operator) (value : Literal) {r : ref} {a : Handle} (ha : find r = .ok a) :
      Resolves (.combineFrom op value r) (.combineFrom op value a)
  | select {r : ref} {a : Handle} {index : List (Index ref)} {index' : List (Index Handle)} (ha : find r = .ok a)
      (hindex : List.Forall₂ (Index.Resolves find) index index') : Resolves (.select r index) (.select a index')
  | reshape {r : ref} {a : Handle} {shape : ShapeSource ref} {extents : List Extent} (ha : find r = .ok a)
      (hshape : shape.resolve find = .ok extents) (layout : Layout) :
      Resolves (.reshape r shape layout) (.reshape a (.extents extents) layout)
  | sum {r : ref} {a : Handle} (ha : find r = .ok a) (axes : Option (List Nat)) : Resolves (.sum r axes) (.sum a axes)
  | prefixSums {r : ref} {a : Handle} (ha : find r = .ok a) : Resolves (.prefixSums r) (.prefixSums a)
  | write {r : ref} {a : Handle} {index : List (Index ref)} {index' : List (Index Handle)} {value : Operand ref}
      {value' : Operand Handle} (ha : find r = .ok a) (hindex : List.Forall₂ (Index.Resolves find) index index')
      (hvalue : value.Resolves find value') : Resolves (.write r index value) (.write a index' value')

theorem Operand.resolve_eq_ok_iff {value : Operand ref} {value' : Operand Handle} :
    value.resolve find = .ok value' ↔ value.Resolves find value' := by
  constructor
  · intro h
    cases value with
    | literal value =>
      cases h
      exact .literal value
    | array r =>
      obtain ⟨a, ha, rfl⟩ := map_eq_ok h
      exact .array ha
  · rintro (value | ha)
    · rfl
    · rw [Operand.resolve, ha]
      rfl

theorem Index.resolve_eq_ok_iff {entry : Index ref} {entry' : Index Handle} :
    entry.resolve find = .ok entry' ↔ entry.Resolves find entry' := by
  constructor
  · intro h
    cases entry with
    | «at» position =>
      cases h
      exact .at position
    | all =>
      cases h
      exact .all
    | slice start stop step =>
      cases h
      exact .slice start stop step
    | gather r =>
      obtain ⟨a, ha, rfl⟩ := map_eq_ok h
      exact .gather ha
  · rintro (position | _ | ⟨start, stop, step⟩ | ha)
    · rfl
    · rfl
    · rfl
    · rw [Index.resolve, ha]
      rfl

theorem mapM_resolve_eq_ok_iff {index : List (Index ref)} {index' : List (Index Handle)} :
    index.mapM (Index.resolve find) = .ok index' ↔ List.Forall₂ (Index.Resolves find) index index' := by
  simp only [mapM_eq_ok_iff, Index.resolve_eq_ok_iff]

/-- Resolving looks up every reference, and fails only where one is not found. -/
theorem Operation.resolve_eq_ok_iff {op : Operation ref} {op' : Operation Handle} :
    op.resolve find = .ok op' ↔ op.Resolves find op' := by
  constructor
  · intro h
    cases op with
    | full shape value elementType =>
      obtain ⟨extents, hshape, h⟩ := exists_of_bind_eq_ok h
      cases h
      exact .full hshape value elementType
    | fill shape value =>
      obtain ⟨extents, hshape, h⟩ := exists_of_bind_eq_ok h
      cases h
      exact .fill hshape value
    | range stop =>
      cases h
      exact .range stop
    | input shape elementType =>
      obtain ⟨extents, hshape, h⟩ := exists_of_bind_eq_ok h
      cases h
      exact .input hshape elementType
    | inputNamed name shape elementType =>
      obtain ⟨extents, hshape, h⟩ := exists_of_bind_eq_ok h
      cases h
      exact .inputNamed name hshape elementType
    | combine op r b =>
      obtain ⟨a, ha, h⟩ := exists_of_bind_eq_ok h
      obtain ⟨b', hb, h⟩ := exists_of_bind_eq_ok h
      cases h
      exact .combine op ha (Operand.resolve_eq_ok_iff.1 hb)
    | combineFrom op value r =>
      obtain ⟨a, ha, h⟩ := exists_of_bind_eq_ok h
      cases h
      exact .combineFrom op value ha
    | select r index =>
      obtain ⟨a, ha, h⟩ := exists_of_bind_eq_ok h
      obtain ⟨index', hindex, h⟩ := exists_of_bind_eq_ok h
      cases h
      exact .select ha (mapM_resolve_eq_ok_iff.1 hindex)
    | reshape r shape layout =>
      obtain ⟨a, ha, h⟩ := exists_of_bind_eq_ok h
      obtain ⟨extents, hshape, h⟩ := exists_of_bind_eq_ok h
      cases h
      exact .reshape ha hshape layout
    | sum r axes =>
      obtain ⟨a, ha, h⟩ := exists_of_bind_eq_ok h
      cases h
      exact .sum ha axes
    | prefixSums r =>
      obtain ⟨a, ha, h⟩ := exists_of_bind_eq_ok h
      cases h
      exact .prefixSums ha
    | write r index value =>
      obtain ⟨a, ha, h⟩ := exists_of_bind_eq_ok h
      obtain ⟨index', hindex, h⟩ := exists_of_bind_eq_ok h
      obtain ⟨value', hvalue, h⟩ := exists_of_bind_eq_ok h
      cases h
      exact .write ha (mapM_resolve_eq_ok_iff.1 hindex) (Operand.resolve_eq_ok_iff.1 hvalue)
  · intro h
    -- each lookup is rewritten to its result, in the order in which the fields are looked up
    cases h with
    | full hshape | fill hshape | input hshape | inputNamed _ hshape =>
      rw [Operation.resolve, hshape]
      rfl
    | range => rfl
    | combine _ ha hb =>
      rw [Operation.resolve, ha, Operand.resolve_eq_ok_iff.2 hb]
      rfl
    | combineFrom _ _ ha | sum ha | prefixSums ha =>
      rw [Operation.resolve, ha]
      rfl
    | select ha hindex =>
      rw [Operation.resolve, ha, mapM_resolve_eq_ok_iff.2 hindex]
      rfl
    | reshape ha hshape =>
      rw [Operation.resolve, ha, hshape]
      rfl
    | write ha hindex hvalue =>
      rw [Operation.resolve, ha, mapM_resolve_eq_ok_iff.2 hindex, Operand.resolve_eq_ok_iff.2 hvalue]
      rfl

theorem Operand.Resolves.exists_of_mem_refs {value : Operand ref} {value' : Operand Handle} (h : value.Resolves find value')
    {a : Handle} (ha : a ∈ value'.refs) : ∃ r, find r = .ok a := by
  cases h with
  | literal => cases ha
  | array hr => exact ⟨_, List.mem_singleton.1 ha ▸ hr⟩

theorem Index.Resolves.exists_of_mem_refs {index : List (Index ref)} {index' : List (Index Handle)}
    (h : List.Forall₂ (Index.Resolves find) index index') {a : Handle} (ha : a ∈ index'.flatMap Index.refs) :
    ∃ r, find r = .ok a := by
  induction h with
  | nil => cases ha
  | cons hentry _ ih =>
    rw [List.flatMap_cons] at ha
    rcases List.mem_append.1 ha with ha | ha
    · cases hentry with
      | gather hr => exact ⟨_, List.mem_singleton.1 ha ▸ hr⟩
      | _ => cases ha
    · exact ih ha

theorem refs_resolve {op : Operation ref} {op' : Operation Handle} (h : op.resolve find = .ok op') {a : Handle}
    (ha : a ∈ op'.refs) : ∃ r, find r = .ok a := by
  cases Operation.resolve_eq_ok_iff.1 h with
  | full | fill | range | input | inputNamed => cases ha
  | combine _ hr hb =>
    rcases List.mem_cons.1 ha with rfl | ha
    · exact ⟨_, hr⟩
    · exact hb.exists_of_mem_refs ha
  | combineFrom _ _ hr | reshape hr | sum hr | prefixSums hr => exact ⟨_, List.mem_singleton.1 ha ▸ hr⟩
  | select hr hindex =>
    rcases List.mem_cons.1 ha with rfl | ha
    · exact ⟨_, hr⟩
    · exact Index.Resolves.exists_of_mem_refs hindex ha
  | write hr hindex hvalue =>
    rcases List.mem_cons.1 ha with rfl | ha
    · exact ⟨_, hr⟩
    · rcases List.mem_append.1 ha with ha | ha
      · exact Index.Resolves.exists_of_mem_refs hindex ha
      · exact hvalue.exists_of_mem_refs ha

end Resolve

theorem Plan.Evolves.trans {p₁ p₂ p₃ : Plan} {handles₁ handles₂ handles₃ : List Handle}
    (h : p₁.Evolves handles₁ p₂ handles₂) (h' : p₂.Evolves handles₂ p₃ handles₃) :
    p₁.Evolves handles₁ p₃ handles₃ := by
  induction h' with
  | refl => exact h
  | step _ hrefs hrun ih => exact ih.step hrefs hrun

namespace Progress

theorem step_evolves (s : Progress) (op : Operation Nat) :
    s.plan.Evolves s.handles (s.step op).plan (s.step op).handles := by
  unfold step
  cases hresolve : op.resolve s.find with
  | error e =>
    have hsame : (Progress.mk (s.results ++ [none]) s.plan).handles = s.handles := by simp [handles]
    exact hsame ▸ .refl
  | ok op' =>
    cases hrun : op'.perform.runOn s.plan with
    | mk outcome p =>
      have hhandles : (Progress.mk (s.results ++ [outcome.toOption]) p).handles =
          s.handles ++ outcome.toOption.toList := by
        cases outcome <;> simp [handles, Except.toOption]
      simp only [hrun, hhandles]
      refine Plan.Evolves.refl.step (fun a ha _ => ?_) hrun
      obtain ⟨place, hplace⟩ := refs_resolve hresolve ha
      exact mem_handles_of_find hplace

theorem run_evolves (ops : List (Operation Nat)) (s : Progress) :
    s.plan.Evolves s.handles (s.run ops).plan (s.run ops).handles := by
  induction ops generalizing s with
  | nil => exact .refl
  | cons op ops ih => exact (s.step_evolves op).trans (ih (s.step op))

theorem run_reachable (id : Nat) (settings : Settings) (ops : List (Operation Nat)) :
    ((start (.empty id settings)).run ops).plan.Reachable ((start (.empty id settings)).run ops).handles :=
  ⟨id, settings, run_evolves ops (start (.empty id settings))⟩

end Progress

end ArrayPlan
