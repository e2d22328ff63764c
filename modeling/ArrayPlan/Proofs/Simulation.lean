import ArrayPlan.Proofs.Dataflow
import ArrayPlan.Proofs.Refinement

/-!
Two kernels run side by side. The first comes from a plan that has grown out of the plan of the second, and stores
some more of its rules. Where a rule is stored by the first alone, its array keeps the values that the second computes
anew at each call, as long as the rule is not overtaken. Then all arrays with a part in the goal, an array of the
second kernel, are alike throughout both runs.
-/

namespace ArrayPlan

open Interpretation

theorem Interpretation.Indexing.rounded_eq {α : Type} [Scalar α] [StableIndices α] {index : List Int} (h : Indexing α index) :
    rounded α index = index := by
  obtain ⟨vs, rfl⟩ := h
  rw [rounded, List.map_map]
  exact List.map_congr_left fun v _ => StableIndices.toIndex_ofInt_toIndex v

theorem Memory.exists_buffer_store {α : Type} {m m' : Memory α} {array other : String} {position : List Int} {v : α}
    {b : Buffer α} (hs : m.store array position v = .ok m') (hb : m.buffer? other = some b) :
    ∃ b', m'.buffer? other = some b' ∧ b'.lengths = b.lengths := by
  have hsame := lengths_store hs other
  rw [hb] at hsame
  exact Option.map_eq_some_iff.1 hsame

theorem Memory.exists_of_declare {α : Type} [Scalar α] {parameters : Env} {m m' : Memory α} {d : Declaration}
    (h : m.declare parameters d = .ok m') : ∃ lengths, d.shape.extents.mapM (Extent.lengthIn parameters) = .ok lengths ∧
      m' = m.set d.name (m.declared d.name lengths) := by
  obtain ⟨lengths, hlengths, h⟩ := exists_of_bind_eq_ok h
  refine ⟨lengths, hlengths, ?_⟩
  unfold declared
  cases hb : m.buffer? d.name with
  | none =>
    rw [hb] at h
    exact (Except.ok.inj h).symm
  | some b =>
    rw [hb] at h
    dsimp only at h
    split at h
    · exact (Except.ok.inj h).symm
    · cases h

theorem Memory.buffer?_of_declared {α : Type} [Scalar α] {parameters : Env} {arrays : List Declaration} {m m' : Memory α}
    (hnodup : (arrayNames arrays).Nodup) (h : arrays.foldlM (declare parameters) m = .ok m') :
    ∀ d ∈ arrays, ∃ lengths, d.shape.extents.mapM (Extent.lengthIn parameters) = .ok lengths ∧
      m'.buffer? d.name = some (m.declared d.name lengths) := by
  suffices hall : (∀ d ∈ arrays, ∃ lengths, d.shape.extents.mapM (Extent.lengthIn parameters) = .ok lengths ∧
      m'.buffer? d.name = some (m.declared d.name lengths)) ∧
        ∀ array, array ∉ arrayNames arrays → m'.buffer? array = m.buffer? array from hall.1
  induction arrays generalizing m with
  | nil =>
    cases h
    exact ⟨by simp, fun _ _ => rfl⟩
  | cons d arrays ih =>
    obtain ⟨hnew, hnodup⟩ := List.nodup_cons.1 hnodup
    rw [List.foldlM_cons] at h
    obtain ⟨mid, hmid, h⟩ := exists_of_bind_eq_ok h
    obtain ⟨lengths, hlengths, rfl⟩ := exists_of_declare hmid
    obtain ⟨hrest, hothers⟩ := ih hnodup h
    refine ⟨fun e he => ?_, fun array harray => ?_⟩
    · rcases List.mem_cons.1 he with rfl | he
      · exact ⟨lengths, hlengths, by rw [hothers _ hnew, buffer?_set, if_pos rfl]⟩
      · obtain ⟨lengths', hlengths', hb⟩ := hrest e he
        have hne : e.name ≠ d.name := fun heq => hnew (heq ▸ List.mem_map_of_mem he)
        refine ⟨lengths', hlengths', ?_⟩
        rw [hb, declared, buffer?_set, if_neg hne, declared]
    · obtain ⟨hne, hnone⟩ := not_or.1 (mt List.mem_cons.2 harray)
      rw [hothers array hnone, buffer?_set, if_neg hne]

structure Lowered where
  plan : Plan
  outputs : List Handle
  stores : List Realization
  kernel : Kernel
  after : Plan
  wellFormed : plan.WellFormed
  lowers : plan.Lowers outputs stores kernel after

namespace Lowered

theorem layered (A : Lowered) : Kernel.Layered A.kernel.rules :=
  A.lowers.layered A.wellFormed

def rewritten (A : Lowered) (e : Nat × Statement) : Statement :=
  e.2.loadBacked A.after.backing e.1

theorem statements_eq (A : Lowered) :
    A.kernel.statements = (agenda A.plan.pending A.stores (A.plan.rules.size + 1)).map A.rewritten :=
  A.lowers.statements

def Alone (B : Lowered) (o : Realization) : Prop :=
  ∀ o' ∈ B.stores, o'.index ≠ o.index

/-- The store of a rule fills the array, and until the end no statement of the second kernel that comes after the rule
overtakes it. -/
structure Settled (B : Lowered) (α : Type) [Scalar α] (parameters : Env) (stop : Nat) (goal : String)
    (o : Realization) : Prop where
  stable : StableIndices α
  arity : o.rule.arity = o.handle.rank ∨ o.rule.arity = 0 ∧ o.handle.shape = .unit
  fits : ∀ e ∈ o.handle.shape.extents, e.lengthIn parameters = .ok (e.bound parameters).toNat
  current : ∀ before e later, agenda B.plan.pending B.stores stop = before ++ e :: later → o.index < e.1 →
    ∀ target, e.2.targets target = true → B.kernel.Reads target (.call o.rule.name []) →
      ¬ B.kernel.Demands goal o.rule.name ((e :: later).map B.rewritten)

/-- Before a registration index, the first does all that the second does. -/
structure Beside (A B : Lowered) (α : Type) [Scalar α] (parameters : Env) (stop : Nat) (goal : String) : Prop where
  grown : B.plan.Extends A.plan
  stop_le : stop ≤ B.plan.rules.size + 1
  rules : ∀ i < stop, A.plan.rules.rules[i]? = B.plan.rules.rules[i]?
  queued : ∀ i < stop, A.plan.pending.filter (fun e => e.1 = i) = B.plan.pending.filter fun e => e.1 = i
  shared : ∀ o' ∈ B.stores, o'.index < stop → ∃ o ∈ A.stores, o.index = o'.index ∧ o.handle = o'.handle
  settled : ∀ o ∈ A.stores, o.index < stop → B.Alone o → B.Settled α parameters stop goal o
  free : ∀ v ∈ A.kernel.domains.flatMap Domain.vars, parameters.value? v = none
  free' : ∀ v ∈ B.kernel.domains.flatMap Domain.vars, parameters.value? v = none

inductive Pairs (A B : Lowered) (stop : Nat) : String → String → Prop where
  | declared {array : String} (harray : array ∈ arrayNames B.plan.arrays) : Pairs A B stop array array
  | stored {o o' : Realization} (ho : o ∈ A.stores) (ho' : o' ∈ B.stores) (hindex : o.index = o'.index)
      (hstop : o.index < stop) : Pairs A B stop o.array o'.array

variable {A B : Lowered} {α : Type} [Scalar α] {parameters : Env} {stop : Nat} {goal : String}

theorem index_inj (A : Lowered) {o o' : Realization} (ho : o ∈ A.stores) (ho' : o' ∈ A.stores)
    (hindex : o.index = o'.index) : o = o' :=
  List.inj_on_of_nodup_map (A.lowers.sorted.imp Nat.ne_of_lt) ho ho' hindex

theorem unseen_of_store_later (A : Lowered) {i : Nat} {rule : String} (hnone : A.plan.backing.find? rule = none)
    (hstores : ∀ o ∈ A.stores, o.rule.name = rule → i ≤ o.index) : A.after.backing.arrayAt? rule i = none := by
  cases hfind : A.after.backing.find? rule with
  | none => rw [BackingTable.arrayAt?, hfind]
  | some entry =>
    obtain ⟨o, ho, hname, rfl⟩ := (A.lowers.find?_eq_some_iff A.wellFormed hnone).1 hfind
    have hle := hstores o ho hname
    rw [BackingTable.arrayAt?, hfind]
    exact if_neg (by simpa using Nat.lt_succ_of_le hle)

theorem unbacked (A : Lowered) {o : Realization} (ho : o ∈ A.stores) : A.plan.backing.find? o.rule.name = none :=
  (Plan.requestedIn_eq_some (A.lowers.sound o ho).2.1).2.2

theorem seen_of_stored (A : Lowered) {o : Realization} (ho : o ∈ A.stores) {i : Nat} (hi : o.index < i) :
    A.after.backing.arrayAt? o.rule.name i = some o.array := by
  rw [BackingTable.arrayAt?, (A.lowers.find?_eq_some_iff A.wellFormed (A.unbacked ho)).2 ⟨o, ho, rfl, rfl⟩]
  exact if_pos hi

theorem unseen_at_store (A : Lowered) {o : Realization} (ho : o ∈ A.stores) :
    A.after.backing.arrayAt? o.rule.name o.index = none :=
  A.unseen_of_store_later (A.unbacked ho) fun _ ho' hname =>
    Nat.le_of_eq (congrArg Realization.index (A.lowers.realization_inj A.wellFormed ho ho' hname.symm))

theorem mem_calls_store (A : Lowered) {o : Realization} {i : Nat}
    (hunseen : A.after.backing.arrayAt? o.rule.name i = none) :
    o.rule.name ∈ (A.rewritten (i, o.store)).value.calls := by
  have hcalls : o.rule.name ∈ o.store.value.calls := by
    unfold Realization.store
    split <;> simp
  rw [show (A.rewritten (i, o.store)).value = o.store.value.loadBacked A.after.backing i from rfl,
    Expr.loadBacked_eq_withLoads, Expr.mem_calls_withLoads]
  exact ⟨hcalls, hunseen⟩

theorem index_of_name (A : Lowered) {o : Realization} (ho : o ∈ A.stores) {j : Nat} {r : Rule}
    (hr : A.plan.rules.rules[j]? = some r) (hname : o.rule.name = r.name) : o.index = j :=
  A.wellFormed.index_inj (A.lowers.sound o ho).1 hr hname

namespace Beside

variable (h : A.Beside B α parameters stop goal)

include h

theorem declared {array : String} (harray : array ∈ arrayNames B.plan.arrays) : array ∈ arrayNames A.plan.arrays := by
  obtain ⟨later, hlater⟩ := h.grown.arrays
  rw [hlater, arrayNames, List.map_append]
  exact List.mem_append_left _ harray

theorem rule_eq {o o' : Realization} (ho : o ∈ A.stores) (ho' : o' ∈ B.stores) (hindex : o.index = o'.index)
    (hstop : o.index < stop) : o.rule = o'.rule := by
  have hrule := (B.lowers.sound o' ho').1
  rw [← hindex, ← h.rules o.index hstop, (A.lowers.sound o ho).1] at hrule
  exact Option.some.inj hrule

theorem handle_eq {o o' : Realization} (ho : o ∈ A.stores) (ho' : o' ∈ B.stores) (hindex : o.index = o'.index)
    (hstop : o.index < stop) : o.handle = o'.handle := by
  obtain ⟨o₁, ho₁, hindex₁, hhandle⟩ := h.shared o' ho' (hindex ▸ hstop)
  obtain rfl := A.index_inj ho₁ ho (hindex₁.trans hindex.symm)
  exact hhandle

theorem pairs_iff {a a' b b' : String} (ha : Pairs A B stop a a') (hb : Pairs A B stop b b') : a = b ↔ a' = b' := by
  cases ha with
  | declared ha =>
    cases hb with
    | declared hb => rfl
    | stored ho ho' =>
      refine iff_of_false (fun heq => ?_) fun heq => ?_
      · exact A.lowers.array_unused A.wellFormed ho (heq ▸ h.declared ha)
      · exact B.lowers.array_unused B.wellFormed ho' (heq ▸ ha)
  | stored ho ho' hindex =>
    cases hb with
    | declared hb =>
      refine iff_of_false (fun heq => ?_) fun heq => ?_
      · exact A.lowers.array_unused A.wellFormed ho (heq ▸ h.declared hb)
      · exact B.lowers.array_unused B.wellFormed ho' (heq ▸ hb)
    | stored ho₁ ho₁' hindex₁ =>
      constructor
      · intro heq
        obtain rfl := A.lowers.array_inj ho ho₁ heq
        rw [B.index_inj ho' ho₁' (hindex.symm.trans hindex₁)]
      · intro heq
        obtain rfl := B.lowers.array_inj ho' ho₁' heq
        rw [A.index_inj ho ho₁ (hindex.trans hindex₁.symm)]

theorem ne_of_alone {a a' : String} (ha : Pairs A B stop a a') {o : Realization} (ho : o ∈ A.stores)
    (halone : B.Alone o) : a ≠ o.array := by
  cases ha with
  | declared ha => exact fun heq => A.lowers.array_unused A.wellFormed ho (heq ▸ h.declared ha)
  | stored ho₁ ho' hindex =>
    intro heq
    obtain rfl := A.lowers.array_inj ho₁ ho heq
    exact halone _ ho' hindex.symm

theorem backed_cases (rule : String) : A.plan.backing.find? rule = B.plan.backing.find? rule ∨
    B.plan.backing.find? rule = none ∧
      ∃ entry, A.plan.backing.find? rule = some entry ∧ B.plan.rules.size < entry.visibleFrom := by
  obtain ⟨later, hlater, hvisible⟩ := h.grown.backed
  rw [BackingTable.find?, BackingTable.find?, hlater, List.lookup_append]
  cases B.plan.backing.entries.lookup rule with
  | some entry => exact .inl rfl
  | none =>
    cases hlookup : later.lookup rule with
    | none => exact .inl rfl
    | some entry =>
      obtain ⟨before, after, hsplit, _⟩ := List.lookup_eq_some_iff.1 hlookup
      exact .inr ⟨rfl, entry, rfl, hvisible (rule, entry) (by simp [hsplit])⟩

theorem seen_cases {i j : Nat} (hj : j < i) (hi : i < stop) {r : Rule} (hr : B.plan.rules.rules[j]? = some r) :
    (A.after.backing.arrayAt? r.name i = none ∧ B.after.backing.arrayAt? r.name i = none) ∨
    (∃ array array', Pairs A B stop array array' ∧ A.after.backing.arrayAt? r.name i = some array ∧
      B.after.backing.arrayAt? r.name i = some array') ∨
    ∃ o ∈ A.stores, o.index < i ∧ B.Alone o ∧ o.rule = r ∧ A.after.backing.arrayAt? r.name i = some o.array ∧
      B.after.backing.arrayAt? r.name i = none := by
  have hjstop : j < stop := by omega
  have hrA : A.plan.rules.rules[j]? = some r := (h.rules j hjstop).trans hr
  have hsize := h.stop_le
  rcases h.backed_cases r.name with hsame | ⟨hnone, entry, hentry, hlate⟩
  · cases hfind : B.plan.backing.find? r.name with
    | some entry =>
      have hA := A.lowers.find?_backed (hsame.trans hfind)
      have hB := B.lowers.find?_backed hfind
      rw [BackingTable.arrayAt?, BackingTable.arrayAt?, hA, hB]
      by_cases hvisible : entry.visibleFrom ≤ i
      · have harray := (B.wellFormed.backed _ (BackingTable.mem_of_find? hfind)).2.1
        exact .inr (.inl ⟨entry.array, entry.array, .declared harray, if_pos hvisible, if_pos hvisible⟩)
      · exact .inl ⟨if_neg hvisible, if_neg hvisible⟩
    | none =>
      have hnoneA := hsame.trans hfind
      by_cases hstored : ∃ o ∈ A.stores, o.index = j
      · obtain ⟨o, ho, rfl⟩ := hstored
        obtain rfl : o.rule = r := Option.some.inj ((A.lowers.sound o ho).1.symm.trans hrA)
        have hA := A.seen_of_stored ho hj
        by_cases hshared : ∃ o' ∈ B.stores, o'.index = o.index
        · obtain ⟨o', ho', hindex⟩ := hshared
          have hrule := h.rule_eq ho ho' hindex.symm hjstop
          refine .inr (.inl ⟨_, _, .stored ho ho' hindex.symm hjstop, hA, ?_⟩)
          rw [hrule]
          exact B.seen_of_stored ho' (hindex ▸ hj)
        · have halone : B.Alone o := fun o' ho' hindex => hshared ⟨o', ho', hindex⟩
          refine .inr (.inr ⟨o, ho, hj, halone, rfl, hA, B.unseen_of_store_later hfind fun o' ho' hname => ?_⟩)
          exact absurd (B.index_of_name ho' hr hname) (halone o' ho')
      · refine .inl ⟨A.unseen_of_store_later hnoneA fun o ho hname => ?_,
          B.unseen_of_store_later hfind fun o' ho' hname => ?_⟩
        · exact absurd ⟨o, ho, A.index_of_name ho hrA hname⟩ hstored
        · have hindex := B.index_of_name ho' hr hname
          obtain ⟨o, ho, hsame, _⟩ := h.shared o' ho' (hindex ▸ hjstop)
          exact absurd ⟨o, ho, hsame.trans hindex⟩ hstored
  -- the rule was given an array only after the second plan was complete
  · refine .inl ⟨?_, B.unseen_of_store_later hnone fun o' ho' hname => ?_⟩
    · rw [BackingTable.arrayAt?, A.lowers.find?_backed hentry]
      exact if_neg (by omega)
    · have hindex := B.index_of_name ho' hr hname
      obtain ⟨o, ho, hsame, _⟩ := h.shared o' ho' (hindex ▸ hjstop)
      have hrule : o.rule = r := Option.some.inj
        ((A.lowers.sound o ho).1.symm.trans (by rw [hsame, hindex, hrA]))
      have hunbacked := A.unbacked ho
      rw [hrule, hentry] at hunbacked
      cases hunbacked

end Beside

def Follows (B : Lowered) (goal : String) (rest : List Statement) (i : Nat) (rule : String) : Prop :=
  match B.after.backing.arrayAt? rule i with
  | some array => B.kernel.Feeds goal rest array
  | none => B.kernel.Tracks goal rest (.call rule [])

theorem within_of_tracks {rest : List Statement} {i : Nat} {rules arrays vars : String → Prop} {e : Expr}
    (he : e.Within rules arrays vars) (htracks : B.kernel.Tracks goal rest (e.loadBacked B.after.backing i)) :
    e.Within (fun rule => rules rule ∧ B.Follows goal rest i rule)
      (fun array => arrays array ∧ B.kernel.Feeds goal rest array) vars := by
  rw [Expr.loadBacked_eq_withLoads] at htracks
  refine he.restrict (fun rule hrule => ⟨he.mem_of_calls hrule, ?_⟩) fun array harray =>
    ⟨he.mem_of_loads harray, htracks.reads array (.load (Expr.mem_loads_withLoads.2 (.inl harray)))⟩
  unfold Follows
  split
  · rename_i array hseen
    exact htracks.reads array (.load (Expr.mem_loads_withLoads.2 (.inr ⟨rule, hrule, hseen⟩)))
  · rename_i hunseen
    exact htracks.call (Expr.mem_calls_withLoads.2 ⟨hrule, hunseen⟩)

/-- The memories of the two runs when everything before an index has been carried out, and some statements of the
second kernel are still to come. -/
structure Alike (A B : Lowered) (parameters : Env) (stop : Nat) (goal : String) (index : Nat) (rest : List Statement)
    (m m' : Memory α) : Prop where
  loads : ∀ a a', Pairs A B stop a a' → B.kernel.Feeds goal rest a' → m.load? a = m'.load? a'
  lengths : ∀ o ∈ A.stores, ∃ b, m.buffer? o.array = some b ∧
    o.handle.shape.extents.mapM (Extent.lengthIn parameters) = .ok b.lengths
  kept : ∀ o ∈ A.stores, o.index < index → B.Alone o → B.kernel.Demands goal o.rule.name rest →
    ∀ position, Indexing α position → ∀ v w, m.load? o.array (loadedIndex α position) = some v →
      (B.kernel.reading parameters m'.load?).call o.rule.name position = some w → v = w

section Reading

variable {m m' m₁ m₁' : Memory α} {index i : Nat} {rest : List Statement}

theorem Alike.advance {s : Statement} (hm : A.Alike B parameters stop goal index (s :: rest) m m') :
    A.Alike B parameters stop goal index rest m m' where
  loads a a' hpair hfeeds := hm.loads a a' hpair (.inl hfeeds)
  lengths := hm.lengths
  kept o ho hlt halone hdemands := hm.kept o ho hlt halone (.inl hdemands)

variable (h : A.Beside B α parameters stop goal)

include h

theorem Beside.points_eq {vars : List String} (hvars : ∀ v ∈ vars, Owned B.plan.domains v) (env : Env) :
    pointsOver A.kernel.domains vars env = pointsOver B.kernel.domains vars env := by
  obtain ⟨later, hlater⟩ := h.grown.domains
  rw [A.lowers.domains, B.lowers.domains, hlater, List.append_assoc, pointsOver_append hvars, pointsOver_append hvars]

theorem Alike.compatible_of_calls (hm : A.Alike B parameters stop goal index rest m m') (hi : i ≤ index)
    (hstop : i < stop) (hcalls : ∀ j < i, ∀ r, B.plan.rules.rules[j]? = some r →
      B.kernel.Tracks goal rest (.call r.name []) → ∀ position, Indexing α position → ∀ v w,
        (A.kernel.reading parameters m.load?).call r.name position = some v →
          (B.kernel.reading parameters m'.load?).call r.name position = some w → v = w) :
    (A.kernel.readingAt parameters A.after.backing m i).CompatibleOn
      (fun rule => rule ∈ ruleNames (B.plan.rules.rules.take i) ∧ B.Follows goal rest i rule)
      (fun array => array ∈ arrayNames B.plan.arrays ∧ B.kernel.Feeds goal rest array) (Owned B.plan.domains)
      (B.kernel.readingAt parameters B.after.backing m' i) := by
  refine ⟨fun rule ⟨hrule, hfollows⟩ position hposition v w hv hw => ?_,
    fun array ⟨harray, hfeeds⟩ position v w hv hw => ?_, fun vars hvars env ps qs hps hqs => ?_⟩
  · obtain ⟨j, r, hj, hr, rfl⟩ := Plan.mem_ruleNames_take.1 hrule
    rw [Follows] at hfollows
    rcases h.seen_cases hj hstop hr with ⟨hA, hB⟩ | ⟨array, array', hpair, hA, hB⟩ |
      ⟨o, ho, hlt, halone, rfl, hA, hB⟩
    · rw [hB] at hfollows
      rw [Kernel.call_readingAt_of_unseen hA] at hv
      rw [Kernel.call_readingAt_of_unseen hB] at hw
      exact hcalls j hj r hr hfollows position hposition v w hv hw
    · rw [hB] at hfollows
      rw [Kernel.call_readingAt_of_seen hA, hm.loads array array' hpair hfollows] at hv
      rw [Kernel.call_readingAt_of_seen hB] at hw
      exact Option.some.inj (hv.symm.trans hw)
    · rw [hB] at hfollows
      rw [Kernel.call_readingAt_of_seen hA] at hv
      rw [Kernel.call_readingAt_of_unseen hB] at hw
      have hdemands := hfollows.calls o.rule.name (.call (by simp))
      exact hm.kept o ho (by omega) halone hdemands position hposition v w hv hw
  · rw [Kernel.load_readingAt] at hv hw
    rw [hm.loads array array (.declared harray) hfeeds] at hv
    exact Option.some.inj (hv.symm.trans hw)
  · rw [Kernel.points_readingAt] at hps hqs
    rw [h.points_eq hvars] at hps
    exact Option.some.inj (hps.symm.trans hqs)

theorem Alike.call_compatible (hm : A.Alike B parameters stop goal index rest m m') (hi : i ≤ index) (hstop : i < stop)
    {r : Rule} (hr : B.plan.rules.rules[i]? = some r) (htracks : B.kernel.Tracks goal rest (.call r.name []))
    {position : List Int} {v w : α} (hv : (A.kernel.reading parameters m.load?).call r.name position = some v)
    (hw : (B.kernel.reading parameters m'.load?).call r.name position = some w) : v = w := by
  induction i using Nat.strongRecOn generalizing r position v w with
  | ind i ih =>
    have hbody : r.loadBacked B.after.backing i ∈ B.kernel.rules := by
      rw [B.lowers.rules]
      exact List.mem_of_getElem? (by rw [List.getElem?_mapIdx, hr]; rfl)
    rw [A.lowers.call_reading A.wellFormed ((h.rules i hstop).trans hr)] at hv
    rw [B.lowers.call_reading B.wellFormed hr] at hw
    split at hv
    · rename_i hlength
      rw [if_pos hlength] at hw
      have hcompatible := hm.compatible_of_calls h hi hstop fun j hj r' hr' htracks' _ _ _ _ hv hw =>
        ih j hj (by omega) (by omega) hr' htracks' hv hw
      exact value?_compatible hcompatible r.body
        (within_of_tracks (B.wellFormed.bodies i r hr)
          (Kernel.Tracks.body (r := r.loadBacked B.after.backing i) htracks hbody)) _ v w hv hw
    · cases hv

theorem Alike.compatible (hm : A.Alike B parameters stop goal index rest m m') (hi : i ≤ index) (hstop : i < stop) :
    (A.kernel.readingAt parameters A.after.backing m i).CompatibleOn
      (fun rule => rule ∈ ruleNames (B.plan.rules.rules.take i) ∧ B.Follows goal rest i rule)
      (fun array => array ∈ arrayNames B.plan.arrays ∧ B.kernel.Feeds goal rest array) (Owned B.plan.domains)
      (B.kernel.readingAt parameters B.after.backing m' i) :=
  hm.compatible_of_calls h hi hstop fun _ _ _ hr htracks _ _ _ _ hv hw =>
    hm.call_compatible h (by omega) (by omega) hr htracks hv hw

theorem Alike.store (hm : A.Alike B parameters stop goal index rest m m') {a a' : String} (hpair : Pairs A B stop a a')
    {position position' : List Int} {v w : α} (hs : m.store a position v = .ok m₁)
    (hs' : m'.store a' position' w = .ok m₁') (hsame : B.kernel.Feeds goal rest a' → position = position' ∧ v = w)
    (hunread : ∀ o ∈ A.stores, o.index < index → B.Alone o → B.kernel.Demands goal o.rule.name rest →
      ¬ B.kernel.Reads a' (.call o.rule.name [])) :
    A.Alike B parameters stop goal index rest m₁ m₁' where
  loads b b' hb hfeeds := by
    funext other
    rw [Memory.load?_store hs, Memory.load?_store hs', hm.loads b b' hb hfeeds]
    by_cases hba : b' = a'
    · obtain ⟨rfl, rfl⟩ := hsame (hba ▸ hfeeds)
      simp only [h.pairs_iff hb hpair]
    · rw [if_neg fun heq => hba ((h.pairs_iff hb hpair).1 heq.1), if_neg fun heq => hba heq.1]
  lengths o ho := by
    obtain ⟨b, hb, hlengths⟩ := hm.lengths o ho
    obtain ⟨b₁, hb₁, hsame⟩ := Memory.exists_buffer_store hs hb
    exact ⟨b₁, hb₁, hsame ▸ hlengths⟩
  kept o ho hlt halone hdemands other hother x y hx hy := by
    have hne : o.array ≠ a := fun heq => h.ne_of_alone hpair ho halone heq.symm
    rw [Memory.load?_store hs, if_neg fun hsame => hne hsame.1] at hx
    refine hm.kept o ho hlt halone hdemands other hother x y hx ?_
    rw [Kernel.call_reading_congr B.layered fun array hreads => ?_]
    · exact hy
    · funext other'
      rw [Memory.load?_store hs', if_neg]
      rintro ⟨rfl, _⟩
      exact hunread o ho hlt halone hdemands hreads

theorem Alike.store_alone (hm : A.Alike B parameters stop goal index rest m m') {o : Realization} (ho : o ∈ A.stores)
    (halone : B.Alone o) (hindex : index ≤ o.index) {position : List Int} {v : α}
    (hs : m.store o.array position v = .ok m₁) : A.Alike B parameters stop goal index rest m₁ m' where
  loads b b' hb hfeeds := by
    rw [← hm.loads b b' hb hfeeds]
    funext other
    rw [Memory.load?_store hs, if_neg fun hsame => h.ne_of_alone hb ho halone hsame.1]
  lengths o' ho' := by
    obtain ⟨b, hb, hlengths⟩ := hm.lengths o' ho'
    obtain ⟨b₁, hb₁, hsame⟩ := Memory.exists_buffer_store hs hb
    exact ⟨b₁, hb₁, hsame ▸ hlengths⟩
  kept o' ho' hlt halone' hdemands other hother x w hx hw := by
    rw [Memory.load?_store hs, if_neg] at hx
    · exact hm.kept o' ho' hlt halone' hdemands other hother x w hx hw
    · rintro ⟨heq, _⟩
      obtain rfl := A.lowers.array_inj ho' ho heq
      omega

end Reading

section Stepping

variable {m m' m₁ m₁' : Memory α} {i : Nat} {before later : List (Nat × Statement)}
  (h : A.Beside B α parameters stop goal)

include h

theorem Beside.queued_step {s : Statement} (hs : (i, s) ∈ B.plan.pending) (hi : i < stop)
    (hsplit : agenda B.plan.pending B.stores stop = before ++ (i, s) :: later)
    (hm : A.Alike B parameters stop goal i (((i, s) :: later).map B.rewritten) m m')
    (hexecute : A.kernel.executeStatement parameters m (A.rewritten (i, s)) = .ok m₁)
    (hexecute' : B.kernel.executeStatement parameters m' (B.rewritten (i, s)) = .ok m₁') :
    A.Alike B parameters stop goal i (later.map B.rewritten) m₁ m₁' := by
  have hscoped := (B.wellFormed.pending _ hs).2
  obtain ⟨array, index, htarget, harray, hindex⟩ := hscoped.target
  obtain ⟨points, hpoints, hfold⟩ := Kernel.exists_points_of_execute hexecute
  obtain ⟨points', hpoints', hfold'⟩ := Kernel.exists_points_of_execute hexecute'
  obtain rfl : points = points' := by
    have hsame := (h.points_eq hscoped.vars parameters).symm.trans hpoints
    exact Except.ok.inj (hsame.symm.trans hpoints')
  have htarget' : (B.rewritten (i, s)).target = .load array (index.map (Expr.loadBacked B.after.backing i)) :=
    Statement.target_loadBacked htarget
  have htargets : (B.rewritten (i, s)).targets array = true := Statement.targets_iff.2 ⟨_, htarget'⟩
  refine Alike.advance (s := B.rewritten (i, s)) ?_
  refine foldlM_forall₂ (S := Eq) (List.forall₂_same.2 fun _ _ => rfl) ?_ hm hfold hfold'
  rintro point _ rfl n n₁ n' n₁' hn hstore hstore'
  obtain ⟨position, v, hposition, hv, hstored⟩ := (Kernel.storeAt_loadBacked_iff A.layered htarget).1 hstore
  obtain ⟨position', w, hposition', hw, hstored'⟩ := (Kernel.storeAt_loadBacked_iff B.layered htarget).1 hstore'
  refine hn.store h (.declared harray) hstored hstored' (fun hfeeds => ?_) fun o ho hlt halone hdemands hreads => ?_
  · have hlater := Kernel.feeds_of_targets htargets hfeeds
    have hcompatible := hn.compatible h (Nat.le_refl i) hi
    refine ⟨position?_compatible hcompatible (Expr.withinAll_iff.2 fun e he => within_of_tracks ?_ ?_) hposition
      hposition', value?_compatible hcompatible s.value (within_of_tracks ?_ ?_) point v w hv hw⟩
    · exact (Expr.withinAll_iff.1 hindex e he).mono (fun _ h => h) (fun _ h => h.elim) fun _ h => h
    · exact Kernel.tracks_position htargets hlater htarget' (List.mem_map_of_mem he)
    · exact hscoped.value.mono (fun _ h => h) (fun _ h => h.elim) fun _ h => h
    · exact Kernel.tracks_value htargets hlater
  · exact (h.settled o ho (by omega) halone).current _ _ _ hsplit hlt array (Statement.targets_iff.2 ⟨index, htarget⟩)
      hreads hdemands

theorem Beside.rule_at {o : Realization} (ho : o ∈ A.stores) (hi : o.index < stop) :
    B.plan.rules.rules[o.index]? = some o.rule :=
  (h.rules o.index hi).symm.trans (A.lowers.sound o ho).1

theorem Beside.shared_step {o o' : Realization} (ho : o ∈ A.stores) (ho' : o' ∈ B.stores) (hindex : o.index = o'.index)
    (hi : o.index < stop)
    (hm : A.Alike B parameters stop goal o.index (((o.index, o'.store) :: later).map B.rewritten) m m')
    (hexecute : A.kernel.executeStatement parameters m (A.rewritten (o.index, o.store)) = .ok m₁)
    (hexecute' : B.kernel.executeStatement parameters m' (B.rewritten (o.index, o'.store)) = .ok m₁') :
    A.Alike B parameters stop goal o.index (later.map B.rewritten) m₁ m₁' := by
  have hrule := h.rule_eq ho ho' hindex hi
  have hhandle := h.handle_eq ho ho' hindex hi
  have hlengths : ∀ e ∈ o.handle.shape.extents, ∃ n, e.lengthIn parameters = .ok n := by
    obtain ⟨_, _, hall⟩ := hm.lengths o ho
    exact fun e he => ⟨_, (lengths_eq_map hall).2 e he⟩
  obtain ⟨points, hpoints, hfold⟩ := Kernel.exists_points_of_execute hexecute
  obtain ⟨points', hpoints', hfold'⟩ := Kernel.exists_points_of_execute hexecute'
  obtain ⟨_, hsame, hstores⟩ := A.lowers.exists_points (α := α) A.wellFormed ho h.free hlengths
  obtain rfl := Except.ok.inj (hsame.symm.trans hpoints)
  obtain ⟨_, hsame', hstores'⟩ := B.lowers.exists_points (α := α) B.wellFormed ho' h.free' (hhandle ▸ hlengths)
  obtain rfl := Except.ok.inj (hsame'.symm.trans hpoints')
  have hargument : ∀ index, o'.argument index = o.argument index := fun index => by
    rw [Realization.argument, Realization.argument, hrule, hhandle]
  rw [Realization.indices, ← hhandle, ← Realization.indices] at hstores'
  obtain ⟨index', htarget⟩ := Statement.targets_iff.1 (Plan.Prepared.targets_store.2 rfl : o'.store.targets o'.array = true)
  have htargets : (B.rewritten (o.index, o'.store)).targets o'.array = true :=
    Statement.targets_iff.2 ⟨_, Statement.target_loadBacked htarget⟩
  refine Alike.advance (s := B.rewritten (o.index, o'.store)) ?_
  refine foldlM_forall₂ (forall₂_join hstores hstores') ?_ hm hfold hfold'
  rintro point point' ⟨index, hpoint, hpoint'⟩ n n₁ n' n₁' hn hstore hstore'
  obtain ⟨v, hv, hstored⟩ := A.lowers.store_of_storeAt A.wellFormed hpoint hstore
  obtain ⟨w, hw, hstored'⟩ := B.lowers.store_of_storeAt B.wellFormed hpoint' hstore'
  have hunseen : B.after.backing.arrayAt? o'.rule.name o.index = none := hindex ▸ B.unseen_at_store ho'
  rw [Kernel.call_readingAt_of_unseen (A.unseen_at_store ho)] at hv
  rw [Kernel.call_readingAt_of_unseen hunseen, hargument, ← hrule] at hw
  refine hn.store h (.stored ho ho' hindex hi) hstored hstored' (fun hfeeds => ⟨rfl, ?_⟩)
    fun o₁ ho₁ hlt halone _ hreads => ?_
  · have hvalue := Kernel.tracks_value htargets (Kernel.feeds_of_targets htargets hfeeds)
    have htracks : B.kernel.Tracks goal _ (.call o'.rule.name []) :=
      hvalue.call (B.mem_calls_store hunseen)
    exact hn.call_compatible h (Nat.le_refl _) hi (h.rule_at ho hi) (hrule ▸ htracks) hv hw
  · rcases B.lowers.loadable_of_rule B.wellFormed (h.rule_at ho₁ (Nat.lt_trans hlt hi)) hreads with
      hdeclared | ⟨o₂, ho₂, hlt₂, hsame⟩
    · exact B.lowers.array_unused B.wellFormed ho' hdeclared
    · obtain rfl := B.lowers.array_inj ho' ho₂ hsame
      omega

/-- The first run alone stores a rule. Each element becomes what the second run finds when it calls the rule, if the
rule has a part in the goal. -/
theorem Beside.alone_fold {o : Realization} (ho : o ∈ A.stores) (halone : B.Alone o) (hi : o.index < stop)
    {rest : List Statement} {indices : List (List Int)} {points : List Env}
    (hstores : List.Forall₂ (o.StoresAt α) indices points)
    (hm : A.Alike B parameters stop goal o.index rest m m')
    (hfold : points.foldlM (A.kernel.storeAt parameters (o.store.loadBacked A.after.backing o.index)) m = .ok m₁) :
    A.Alike B parameters stop goal o.index rest m₁ m' ∧
      (B.kernel.Demands goal o.rule.name rest → ∀ index,
        (index ∈ indices ∨ ∀ v w, m.load? o.array (rounded α index) = some v →
          (B.kernel.reading parameters m'.load?).call o.rule.name (rounded α (o.argument index)) = some w → v = w) →
        ∀ v w, m₁.load? o.array (rounded α index) = some v →
          (B.kernel.reading parameters m'.load?).call o.rule.name (rounded α (o.argument index)) = some w → v = w) := by
  induction hstores generalizing m with
  | nil =>
    cases hfold
    exact ⟨hm, fun _ index hindex => hindex.resolve_left (by simp)⟩
  | @cons x point indices points hpoint _ ih =>
    rw [List.foldlM_cons] at hfold
    obtain ⟨mid, hstore, hfold⟩ := exists_of_bind_eq_ok hfold
    obtain ⟨u, hu, hstored⟩ := A.lowers.store_of_storeAt A.wellFormed hpoint hstore
    rw [Kernel.call_readingAt_of_unseen (A.unseen_at_store ho)] at hu
    obtain ⟨hend, hall⟩ := ih (hm.store_alone h ho halone (Nat.le_refl _) hstored) hfold
    refine ⟨hend, fun hdemands index hindex => hall hdemands index ?_⟩
    -- storing at `x` settles every index that is rounded to the same place, and leaves the others
    have hsettled : ∀ index, rounded α index = rounded α x → ∀ w,
        (B.kernel.reading parameters m'.load?).call o.rule.name (rounded α (o.argument index)) = some w → u = w := by
      intro index hsame w hw
      have hargument : rounded α (o.argument index) = rounded α (o.argument x) := by
        unfold Realization.argument
        split
        · rfl
        · exact hsame
      rw [hargument] at hw
      exact hm.call_compatible h (Nat.le_refl _) hi (h.rule_at ho hi) hdemands.tracks hu hw
    rcases hindex with hindex | hbefore
    · rcases List.mem_cons.1 hindex with rfl | hindex
      · refine .inr fun v w hv hw => ?_
        rw [Memory.load?_store hstored, if_pos ⟨rfl, rfl⟩] at hv
        exact Option.some.inj hv ▸ hsettled index rfl w hw
      · exact .inl hindex
    · refine .inr fun v w hv hw => ?_
      rw [Memory.load?_store hstored] at hv
      by_cases hsame : rounded α index = rounded α x
      · rw [if_pos ⟨rfl, hsame⟩] at hv
        exact Option.some.inj hv ▸ hsettled index hsame w hw
      · rw [if_neg fun hboth => hsame hboth.2] at hv
        exact hbefore v w hv hw

omit h in
theorem exists_index {o : Realization} (hsettled : B.Settled α parameters stop goal o) {lengths : List Nat}
    (hlengths : o.handle.shape.extents.mapM (Extent.lengthIn parameters) = .ok lengths) {position : List Int}
    (hposition : Indexing α position) (hcount : o.rule.arity = position.length)
    (hinside : InBox (loadedIndex α position) lengths) :
    ∃ index ∈ o.indices parameters, rounded α index = loadedIndex α position ∧
      rounded α (o.argument index) = position := by
  have := hsettled.stable
  unfold Realization.indices Realization.argument
  cases hunit : o.handle.shape.isUnit with
  | true =>
    have hshape : o.handle.shape = .unit := eq_of_beq hunit
    refine ⟨[0], List.mem_singleton_self _, ?_⟩
    simp only [if_true, hcount]
    by_cases hnil : position = []
    · subst hnil
      exact ⟨rfl, rfl⟩
    · rw [loadedIndex, if_neg hnil] at hinside ⊢
      have hone : lengths = [1] := by
        rw [hshape] at hlengths
        exact (Except.ok.inj hlengths).symm
      obtain rfl := eq_of_inBox_unit (hone ▸ hinside)
      exact ⟨hposition.rounded_eq, hposition.rounded_eq⟩
  | false =>
    have hrank : position.length = o.handle.rank := by
      rcases hsettled.arity with harity | ⟨_, hshape⟩
      · exact hcount.symm.trans harity
      · rw [hshape] at hunit
        cases hunit
    have hnil : position ≠ [] := by
      rintro rfl
      exact Nat.ne_of_gt o.handle.shape.rank_pos hrank.symm
    rw [loadedIndex, if_neg hnil] at hinside ⊢
    refine ⟨position, ?_, hposition.rounded_eq, hposition.rounded_eq⟩
    have hsame : o.handle.shape.extents.map (fun e => (e.bound parameters).toNat) = lengths := by
      rw [(lengths_eq_map hlengths).1]
      refine List.map_congr_left fun e he => ?_
      rw [Extent.lengthAt, hsettled.fits e he]
      rfl
    exact mem_boxPoints.2 (hsame ▸ hinside)

theorem Beside.alone_step {o : Realization} (ho : o ∈ A.stores) (halone : B.Alone o) (hi : o.index < stop)
    {rest : List Statement} (hm : A.Alike B parameters stop goal o.index rest m m')
    (hexecute : A.kernel.executeStatement parameters m (A.rewritten (o.index, o.store)) = .ok m₁) :
    A.Alike B parameters stop goal (o.index + 1) rest m₁ m' := by
  obtain ⟨points, hpoints, hfold⟩ := Kernel.exists_points_of_execute hexecute
  obtain ⟨_, hsame, hstores⟩ := A.lowers.exists_points (α := α) A.wellFormed ho h.free fun e he =>
    ⟨_, (h.settled o ho hi halone).fits e he⟩
  obtain rfl := Except.ok.inj (hsame.symm.trans hpoints)
  obtain ⟨hend, hstored⟩ := h.alone_fold ho halone hi hstores hm hfold
  refine ⟨hend.loads, hend.lengths, fun o' ho' hlt halone' hdemands position hposition v w hv hw => ?_⟩
  rcases Nat.lt_succ_iff_lt_or_eq.1 hlt with hlt | heq
  · exact hend.kept o' ho' hlt halone' hdemands position hposition v w hv hw
  · obtain rfl := A.index_inj ho' ho heq
    obtain ⟨b, hb, hlengths⟩ := hend.lengths o' ho'
    have hinside := (Memory.load?_isSome_iff hb).1 (Option.isSome_iff_exists.2 ⟨v, hv⟩)
    have hcount : o'.rule.arity = position.length := by
      rw [B.lowers.call_reading B.wellFormed (h.rule_at ho hi)] at hw
      split at hw
      · assumption
      · cases hw
    obtain ⟨index, hindex, hplace, hargument⟩ :=
      exists_index (h.settled o' ho hi halone) hlengths hposition hcount hinside
    exact hstored hdemands index (.inl hindex) v w (hplace ▸ hv) (hargument ▸ hw)

end Stepping

section Running

variable {m m' m₁ m₁' : Memory α} {n : Nat} {before later : List (Nat × Statement)}

def carryOut (A : Lowered) (parameters : Env) (m : Memory α) (e : Nat × Statement) : Except ExecutionFault (Memory α) :=
  A.kernel.executeStatement parameters m (A.rewritten e)

theorem stores_at (A : Lowered) {o : Realization} (ho : o ∈ A.stores) :
    A.stores.filter (fun o' => o'.index = o.index) = [o] := by
  obtain ⟨before, after, hsplit⟩ := List.append_of_mem ho
  have hnot : ∀ o' ∈ before ++ after, ¬ o'.index = o.index := by
    have hnodup := A.lowers.sorted.imp Nat.ne_of_lt
    rw [hsplit, List.map_append, List.map_cons, ← List.Nodup, List.nodup_middle, List.nodup_cons] at hnodup
    intro o' ho' heq
    rw [← List.map_append] at hnodup
    exact hnodup.1 (heq ▸ List.mem_map_of_mem ho')
  rw [hsplit, List.filter_append, List.filter_cons_of_pos (by simp)]
  rw [List.filter_eq_nil_iff.2 fun o' ho' => by simpa using hnot o' (List.mem_append_left _ ho'),
    List.filter_eq_nil_iff.2 fun o' ho' => by simpa using hnot o' (List.mem_append_right _ ho')]
  rfl

theorem no_stores_at (A : Lowered) (hnone : ∀ o ∈ A.stores, o.index ≠ n) :
    A.stores.filter (fun o => o.index = n) = [] :=
  List.filter_eq_nil_iff.2 fun o ho => by simpa using hnone o ho

variable (h : A.Beside B α parameters stop goal)

include h

theorem Beside.queued_run (hn : n < stop) {due : List (Nat × Statement)}
    (hdue : ∀ e ∈ due, e ∈ B.plan.pending ∧ e.1 = n)
    (hsplit : agenda B.plan.pending B.stores stop = before ++ (due ++ later))
    (hm : A.Alike B parameters stop goal n ((due ++ later).map B.rewritten) m m')
    (hrun : due.foldlM (A.carryOut parameters) m = .ok m₁) (hrun' : due.foldlM (B.carryOut parameters) m' = .ok m₁') :
    A.Alike B parameters stop goal n (later.map B.rewritten) m₁ m₁' := by
  induction due generalizing before m m' with
  | nil =>
    cases hrun
    cases hrun'
    exact hm
  | cons e due ih =>
    rw [List.foldlM_cons] at hrun hrun'
    obtain ⟨mid, hexecute, hrun⟩ := exists_of_bind_eq_ok hrun
    obtain ⟨mid', hexecute', hrun'⟩ := exists_of_bind_eq_ok hrun'
    obtain ⟨hmem, rfl⟩ := hdue e List.mem_cons_self
    have hsplit' : agenda B.plan.pending B.stores stop = before ++ [e] ++ (due ++ later) := by
      rw [hsplit, List.append_assoc]
      rfl
    have hmid := h.queued_step hmem hn hsplit hm hexecute hexecute'
    exact ih (fun e he => hdue e (List.mem_cons_of_mem _ he)) hsplit' hmid hrun hrun'

theorem Beside.step (hn : n < stop)
    (hsplit : agenda B.plan.pending B.stores stop = before ++ (dueAt B.plan.pending B.stores n ++ later))
    (hm : A.Alike B parameters stop goal n ((dueAt B.plan.pending B.stores n ++ later).map B.rewritten) m m')
    (hrun : (dueAt A.plan.pending A.stores n).foldlM (A.carryOut parameters) m = .ok m₁)
    (hrun' : (dueAt B.plan.pending B.stores n).foldlM (B.carryOut parameters) m' = .ok m₁') :
    A.Alike B parameters stop goal (n + 1) (later.map B.rewritten) m₁ m₁' := by
  rw [dueAt, List.foldlM_append] at hrun hrun'
  rw [dueAt, List.append_assoc] at hsplit hm
  obtain ⟨mid, hqueued, hstores⟩ := exists_of_bind_eq_ok hrun
  obtain ⟨mid', hqueued', hstores'⟩ := exists_of_bind_eq_ok hrun'
  rw [h.queued n hn] at hqueued
  have hmid := h.queued_run hn
    (fun e he => ⟨(List.mem_filter.1 he).1, by simpa using (List.mem_filter.1 he).2⟩) hsplit hm hqueued hqueued'
  by_cases hstored : ∃ o ∈ A.stores, o.index = n
  · obtain ⟨o, ho, rfl⟩ := hstored
    rw [A.stores_at ho, List.map_singleton, List.foldlM_cons] at hstores
    obtain ⟨_, hexecute, hnil⟩ := exists_of_bind_eq_ok hstores
    cases hnil
    by_cases halone : B.Alone o
    · rw [B.no_stores_at halone, List.map_nil] at hstores' hmid
      cases hstores'
      exact h.alone_step ho halone hn hmid hexecute
    · obtain ⟨o', ho', hindex⟩ : ∃ o' ∈ B.stores, o'.index = o.index := by
        simpa [Alone] using halone
      rw [← hindex, B.stores_at ho', List.map_singleton, hindex] at hstores' hmid
      rw [List.foldlM_cons] at hstores'
      obtain ⟨_, hexecute', hnil⟩ := exists_of_bind_eq_ok hstores'
      cases hnil
      have hend := h.shared_step ho ho' hindex.symm hn hmid hexecute hexecute'
      refine ⟨hend.loads, hend.lengths, fun o₁ ho₁ hlt halone₁ => ?_⟩
      refine hend.kept o₁ ho₁ ((Nat.lt_succ_iff_lt_or_eq.1 hlt).resolve_right fun heq => ?_) halone₁
      exact halone₁ o' ho' (hindex.trans heq.symm)
  · have hnone' : ∀ o' ∈ B.stores, o'.index ≠ n := by
      rintro o' ho' rfl
      obtain ⟨o, ho, hindex, _⟩ := h.shared o' ho' hn
      exact hstored ⟨o, ho, hindex⟩
    rw [A.no_stores_at fun o ho heq => hstored ⟨o, ho, heq⟩, List.map_nil] at hstores
    rw [B.no_stores_at hnone', List.map_nil] at hstores' hmid
    cases hstores
    cases hstores'
    refine ⟨hmid.loads, hmid.lengths, fun o ho hlt => ?_⟩
    exact hmid.kept o ho ((Nat.lt_succ_iff_lt_or_eq.1 hlt).resolve_right fun heq => hstored ⟨o, ho, heq⟩)

theorem Beside.run (hn : n ≤ stop) (hsplit : agenda B.plan.pending B.stores stop = agenda B.plan.pending B.stores n ++ later)
    (hm : A.Alike B parameters stop goal 0 ((agenda B.plan.pending B.stores stop).map B.rewritten) m m')
    (hrun : (agenda A.plan.pending A.stores n).foldlM (A.carryOut parameters) m = .ok m₁)
    (hrun' : (agenda B.plan.pending B.stores n).foldlM (B.carryOut parameters) m' = .ok m₁') :
    A.Alike B parameters stop goal n (later.map B.rewritten) m₁ m₁' := by
  induction n generalizing later m₁ m₁' with
  | zero =>
    cases hrun
    cases hrun'
    rwa [hsplit] at hm
  | succ n ih =>
    rw [agenda, List.foldlM_append] at hrun hrun'
    rw [agenda, List.append_assoc] at hsplit
    obtain ⟨mid, hbefore, hrun⟩ := exists_of_bind_eq_ok hrun
    obtain ⟨mid', hbefore', hrun'⟩ := exists_of_bind_eq_ok hrun'
    exact h.step hn hsplit (ih (Nat.le_of_succ_le hn) hsplit hbefore hbefore') hrun hrun'

end Running

section Whole

variable {m m' : Memory α} {inputs inputs' : List (String × Array α)}

omit [Scalar α] in
theorem boundData_of_not_mem {array : String} (h : array ∉ inputs.map Prod.fst) : boundData inputs array = #[] := by
  have hnone : inputs.reverse.lookup array = none := by
    refine List.lookup_eq_none_iff.2 fun i hi => ?_
    have hne : i.1 ≠ array := fun heq => h (heq ▸ List.mem_map_of_mem (List.mem_reverse.1 hi))
    simpa using hne.symm
  rw [boundData, hnone]
  rfl

structure Fed (A B : Lowered) (inputs inputs' : List (String × Array α)) : Prop where
  own : ∀ i ∈ inputs, i.1 ∈ arrayNames A.plan.arrays
  own' : ∀ i ∈ inputs', i.1 ∈ arrayNames B.plan.arrays
  same : ∀ array ∈ arrayNames B.plan.arrays, boundData inputs array = boundData inputs' array

theorem exists_buffer (A : Lowered)
    (hm : A.kernel.arrays.foldlM (Memory.declare parameters) (Memory.ofInputs inputs) = .ok m) {d : Declaration}
    (hd : d ∈ A.kernel.arrays) : ∃ lengths, d.shape.extents.mapM (Extent.lengthIn parameters) = .ok lengths ∧
      m.buffer? d.name = some ⟨lengths, boundData inputs d.name, ∅⟩ := by
  obtain ⟨lengths, hlengths, hb⟩ :=
    Memory.buffer?_of_declared (A.lowers.arrays_nodup A.wellFormed) hm d hd
  exact ⟨lengths, hlengths, by rw [hb, Memory.declared_ofInputs]⟩

theorem exists_buffer_stored (A : Lowered)
    (hm : A.kernel.arrays.foldlM (Memory.declare parameters) (Memory.ofInputs inputs) = .ok m)
    (hown : ∀ i ∈ inputs, i.1 ∈ arrayNames A.plan.arrays) {o : Realization} (ho : o ∈ A.stores) :
    ∃ lengths, o.handle.shape.extents.mapM (Extent.lengthIn parameters) = .ok lengths ∧
      m.buffer? o.array = some ⟨lengths, #[], ∅⟩ := by
  have hd : o.declaration ∈ A.kernel.arrays := by
    rw [A.lowers.arrays]
    exact List.mem_append_right _ (List.mem_map_of_mem ho)
  obtain ⟨lengths, hlengths, hb⟩ := A.exists_buffer hm hd
  have hunfed : boundData inputs o.array = #[] := boundData_of_not_mem fun hmem => by
    obtain ⟨i, hi, heq⟩ := List.mem_map.1 hmem
    exact A.lowers.array_unused A.wellFormed ho (heq ▸ hown i hi)
  exact ⟨lengths, hlengths, hunfed ▸ hb⟩

theorem Beside.alike_start (h : A.Beside B α parameters stop goal) (rest : List Statement) (hfed : A.Fed B inputs inputs')
    (hm : A.kernel.arrays.foldlM (Memory.declare parameters) (Memory.ofInputs inputs) = .ok m)
    (hm' : B.kernel.arrays.foldlM (Memory.declare parameters) (Memory.ofInputs inputs') = .ok m') :
    A.Alike B parameters stop goal 0 rest m m' where
  loads a a' hpair _ := by
    funext index
    cases hpair with
    | declared harray =>
      obtain ⟨d, hd, rfl⟩ := List.mem_map.1 harray
      obtain ⟨later, hlater⟩ := h.grown.arrays
      obtain ⟨lengths, hlengths, hb⟩ := A.exists_buffer hm (d := d)
        (by rw [A.lowers.arrays, hlater]; exact List.mem_append_left _ (List.mem_append_left _ hd))
      obtain ⟨lengths', hlengths', hb'⟩ := B.exists_buffer hm' (d := d)
        (by rw [B.lowers.arrays]; exact List.mem_append_left _ hd)
      obtain rfl := Except.ok.inj (hlengths.symm.trans hlengths')
      rw [Memory.load?_eq_of_buffer? hb, Memory.load?_eq_of_buffer? hb', hfed.same d.name harray]
    | @stored o o' ho ho' hindex hstop =>
      obtain ⟨lengths, hlengths, hb⟩ := A.exists_buffer_stored hm hfed.own ho
      obtain ⟨lengths', hlengths', hb'⟩ := B.exists_buffer_stored hm' hfed.own' ho'
      rw [← h.handle_eq ho ho' hindex hstop] at hlengths'
      obtain rfl := Except.ok.inj (hlengths.symm.trans hlengths')
      rw [Memory.load?_eq_of_buffer? hb, Memory.load?_eq_of_buffer? hb']
  lengths o ho := by
    obtain ⟨lengths, hlengths, hb⟩ := A.exists_buffer_stored hm hfed.own ho
    exact ⟨_, hb, hlengths⟩
  kept _ _ hlt := by omega

theorem run_of_execute (A : Lowered) (hexecute : A.kernel.execute parameters inputs = .ok m) :
    ∃ start, A.kernel.arrays.foldlM (Memory.declare parameters) (Memory.ofInputs inputs) = .ok start ∧
      (agenda A.plan.pending A.stores (A.plan.rules.size + 1)).foldlM (A.carryOut parameters) start = .ok m := by
  obtain ⟨start, hstart, hrun⟩ := exists_of_bind_eq_ok hexecute
  refine ⟨start, hstart, ?_⟩
  rw [A.statements_eq, List.foldlM_map] at hrun
  exact hrun

theorem load?_after (A : Lowered) {o : Realization} (ho : o ∈ A.stores) (hi : o.index < stop) {n : Nat}
    (hn : stop ≤ n) {start : Memory α}
    (hrun : (agenda A.plan.pending A.stores n).foldlM (A.carryOut parameters) start = .ok m) :
    ∃ mid, (agenda A.plan.pending A.stores stop).foldlM (A.carryOut parameters) start = .ok mid ∧
      m.load? o.array = mid.load? o.array := by
  induction hn generalizing m with
  | refl => exact ⟨m, hrun, rfl⟩
  | @step n hn ih =>
    have hn : stop ≤ n := hn
    rw [agenda, List.foldlM_append] at hrun
    obtain ⟨before, hbefore, hrun⟩ := exists_of_bind_eq_ok hrun
    obtain ⟨mid, hmid, hsame⟩ := ih hbefore
    refine ⟨mid, hmid, ?_⟩
    rw [← hsame]
    refine foldlM_invariant (P := fun m' : Memory α => m'.load? o.array = before.load? o.array) _ ?_ rfl hrun
    intro e he b b' hb hexecute
    have hother : ∃ array index, e.2.target = .load array index ∧ array ≠ o.array := by
      rcases List.mem_append.1 he with he | he
      · obtain ⟨array, index, htarget, harray, _⟩ := (A.wellFormed.pending e (List.mem_filter.1 he).1).2.target
        exact ⟨array, index, htarget, fun heq => A.lowers.array_unused A.wellFormed ho (heq ▸ harray)⟩
      · obtain ⟨o', ho', rfl⟩ := List.mem_map.1 he
        obtain ⟨ho', hindex⟩ := List.mem_filter.1 ho'
        have hindex : o'.index = n := by simpa using hindex
        obtain ⟨index, htarget⟩ := Statement.targets_iff.1 (Plan.Prepared.targets_store.2 rfl : o'.store.targets o'.array = true)
        refine ⟨o'.array, index, htarget, fun heq => ?_⟩
        obtain rfl := A.lowers.array_inj ho' ho heq
        omega
    obtain ⟨array, index, htarget, hne⟩ := hother
    rw [← hb]
    funext position
    exact (Kernel.alters_execute A.layered htarget hexecute).elsewhere o.array hne.symm position

theorem Beside.load?_stored {o o' : Realization} (h : A.Beside B α parameters stop o'.array)
    (hsize : stop ≤ A.plan.rules.size + 1) (hfed : A.Fed B inputs inputs')
    (hexecute : A.kernel.execute parameters inputs = .ok m) (hexecute' : B.kernel.execute parameters inputs' = .ok m')
    (ho : o ∈ A.stores) (ho' : o' ∈ B.stores) (hindex : o.index = o'.index) (hi : o.index < stop) :
    m.load? o.array = m'.load? o'.array := by
  obtain ⟨start, hstart, hrun⟩ := A.run_of_execute hexecute
  obtain ⟨start', hstart', hrun'⟩ := B.run_of_execute hexecute'
  obtain ⟨mid, hmid, hsame⟩ := A.load?_after ho hi hsize hrun
  obtain ⟨mid', hmid', hsame'⟩ := B.load?_after ho' (hindex ▸ hi) h.stop_le hrun'
  have hend := h.run (Nat.le_refl stop) (List.append_nil _).symm (h.alike_start _ hfed hstart hstart') hmid hmid'
  rw [hsame, hsame', hend.loads _ _ (.stored ho ho' hindex hi) rfl]

theorem Beside.load?_declared {array : String} (h : A.Beside B α parameters (B.plan.rules.size + 1) array)
    (hsize : A.plan.rules.size = B.plan.rules.size) (hfed : A.Fed B inputs inputs')
    (hexecute : A.kernel.execute parameters inputs = .ok m) (hexecute' : B.kernel.execute parameters inputs' = .ok m')
    (harray : array ∈ arrayNames B.plan.arrays) : m.load? array = m'.load? array := by
  obtain ⟨start, hstart, hrun⟩ := A.run_of_execute hexecute
  obtain ⟨start', hstart', hrun'⟩ := B.run_of_execute hexecute'
  rw [hsize] at hrun
  have hend := h.run (Nat.le_refl _) (List.append_nil _).symm (h.alike_start _ hfed hstart hstart') hrun hrun'
  exact hend.loads _ _ (.declared harray) rfl

end Whole

end Lowered

end ArrayPlan
