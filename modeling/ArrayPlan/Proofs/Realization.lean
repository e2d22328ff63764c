import ArrayPlan.Plan.Lowering
import ArrayPlan.Proofs.Growth
import ArrayPlan.Proofs.Inlining
import ArrayPlan.Proofs.Rewriting
import ArrayPlan.Proofs.Shapes

/-!
What lowering produces, in closed form. The backing table only gains entries, and an entry that is gained at
a rule is not seen at that rule or before. So every rule and every statement comes out as if rewritten by the
final table, each as seen at its own place, and the statements are those due at each place in turn.
-/

namespace ArrayPlan

/-- A requested rule that lowering gives an output array. -/
structure Realization where
  index : Nat
  rule : Rule
  handle : Handle
  array : String
  vars : List String

namespace Realization

def entry (o : Realization) : String × BackingEntry :=
  (o.rule.name, ⟨o.array, o.index + 1⟩)

def declaration (o : Realization) : Declaration :=
  ⟨o.array, o.handle.shape, o.handle.elementType, .output⟩

def domains (o : Realization) : List Domain :=
  if o.handle.shape.isUnit then [] else [.box (o.vars.zip o.handle.shape.extents)]

def store (o : Realization) : Statement :=
  if o.handle.shape.isUnit then
    ⟨.load o.array [.int 0], .call o.rule.name (List.replicate o.rule.arity (.int 0)), []⟩
  else ⟨.load o.array (o.vars.map .var), .call o.rule.name (o.vars.map .var), o.vars⟩

end Realization

def dueAt (pending : List (Nat × Statement)) (os : List Realization) (index : Nat) : List (Nat × Statement) :=
  (pending.filter fun e => e.1 = index) ++
    ((os.filter fun o => o.index = index).map fun o => (index, o.store))

/-- The statements due before a registration index, in order. -/
def agenda (pending : List (Nat × Statement)) (os : List Realization) : Nat → List (Nat × Statement)
  | 0 => []
  | stop + 1 => agenda pending os stop ++ dueAt pending os stop

theorem mem_dueAt_iff {pending : List (Nat × Statement)} {os : List Realization} {index : Nat} {e : Nat × Statement} :
    e ∈ dueAt pending os index ↔ e.1 = index ∧ (e ∈ pending ∨ ∃ o ∈ os, e = (o.index, o.store)) := by
  simp only [dueAt, List.mem_append, List.mem_filter, List.mem_map, decide_eq_true_eq]
  constructor
  · rintro (⟨he, hindex⟩ | ⟨o, ⟨ho, rfl⟩, rfl⟩)
    · exact ⟨hindex, .inl he⟩
    · exact ⟨rfl, .inr ⟨o, ho, rfl⟩⟩
  · rintro ⟨rfl, he | ⟨o, ho, rfl⟩⟩
    · exact .inl ⟨he, rfl⟩
    · exact .inr ⟨o, ⟨ho, rfl⟩, rfl⟩

theorem mem_agenda_iff {pending : List (Nat × Statement)} {os : List Realization} {stop : Nat} {e : Nat × Statement} :
    e ∈ agenda pending os stop ↔ e.1 < stop ∧ (e ∈ pending ∨ ∃ o ∈ os, e = (o.index, o.store)) := by
  induction stop with
  | zero => simp [agenda]
  | succ stop ih =>
    rw [agenda, List.mem_append, ih, mem_dueAt_iff, ← or_and_right, Nat.lt_succ_iff_lt_or_eq]

theorem agenda_append {pending : List (Nat × Statement)} {os : List Realization} {stop : Nat} {o : Realization}
    (ho : stop ≤ o.index) : agenda pending (os ++ [o]) stop = agenda pending os stop := by
  induction stop with
  | zero => rfl
  | succ stop ih =>
    have hne : o.index ≠ stop := by omega
    rw [agenda, agenda, ih (by omega)]
    simp [dueAt, hne]

theorem loadBacked_congr {t t' : BackingTable} {i : Nat} (h : ∀ rule, t.arrayAt? rule i = t'.arrayAt? rule i) :
    Expr.loadBacked t i = Expr.loadBacked t' i := by
  have hload : t.loadFor? i = t'.loadFor? i := by
    funext e
    cases e <;> simp [BackingTable.loadFor?, h]
  funext e
  rw [Expr.loadBacked, Expr.loadBacked, hload]

namespace Plan

variable {p : Plan} {outputs : List Handle}

/-- The walk over the rules as it stands before a registration index. -/
structure Walked (p : Plan) (outputs : List Handle) (index : Nat) (os : List Realization) (l : Lowering) : Prop where
  sorted : (os.map Realization.index).Pairwise (· < ·)
  sound : ∀ o ∈ os, o.index < index ∧ p.rules.rules[o.index]? = some o.rule ∧
    p.requestedIn outputs o.rule.name = some o.handle ∧
    (o.handle.shape.isUnit = false → o.vars.length = o.handle.shape.rank)
  complete : ∀ (i : Nat) (r : Rule), i < index → p.rules.rules[i]? = some r →
    (p.requestedIn outputs r.name).isSome → ∃ o ∈ os, o.index = i
  draws : p.names.Draws l.names (os.flatMap fun o => o.array :: o.vars)
  backing : l.backing.entries = p.backing.entries ++ os.map Realization.entry
  domains : l.domains = p.domains ++ os.flatMap Realization.domains
  arrays : l.arrays = p.arrays ++ os.map Realization.declaration
  rules : l.rules = (p.rules.rules.take index).mapIdx fun i r => r.loadBacked l.backing i
  statements : l.statements = (agenda p.pending os index).map fun e => e.2.loadBacked l.backing e.1
  stores : l.stores = os.map fun o => (o.rule.name, o.store.within)

theorem walked_zero (p : Plan) (outputs : List Handle) :
    p.Walked outputs 0 [] ⟨p.names, p.backing, p.domains, p.arrays, [], [], []⟩ where
  sorted := .nil
  sound := by simp
  complete i r hi := absurd hi (Nat.not_lt_zero i)
  draws := .refl _
  backing := by simp
  domains := by simp
  arrays := by simp
  rules := by simp
  statements := rfl
  stores := rfl

theorem statements_flush (pending : List (Nat × Statement)) (index : Nat) (l : Lowering) :
    (l.flush pending index).statements =
      l.statements ++ (pending.filter fun e => e.1 = index).map fun e => e.2.loadBacked l.backing e.1 := by
  simp only [Lowering.flush, List.map_map]
  refine congrArg _ (List.map_congr_left fun e he => ?_)
  have hkey : e.1 = index := by simpa using (List.mem_filter.1 he).2
  rw [hkey]
  rfl

theorem exists_realization (l : Lowering) (index : Nat) (r : Rule) (h : Handle) :
    ∃ o : Realization, o.index = index ∧ o.rule = r ∧ o.handle = h ∧
      (h.shape.isUnit = false → o.vars.length = h.shape.rank) ∧
      l.names.Draws (l.realize index r h).names (o.array :: o.vars) ∧
      (l.realize index r h).statements = l.statements ++ [o.store.loadBacked l.backing index] ∧
      (l.realize index r h).arrays = l.arrays ++ [o.declaration] ∧
      (l.realize index r h).domains = l.domains ++ o.domains ∧
      (l.realize index r h).rules = l.rules ∧
      (l.realize index r h).stores = l.stores ++ [(r.name, o.store.within)] ∧
      (l.realize index r h).backing = l.backing.insert r.name o.array (index + 1) := by
  unfold Lowering.realize
  have harray := NameSupply.fresh_draws l.names .array
  cases hunit : h.shape.isUnit with
  | true =>
    refine ⟨⟨index, r, h, (l.names.fresh .array).1, []⟩, rfl, rfl, rfl, by simp, ?_, ?_, ?_, ?_, ?_, ?_, ?_⟩ <;>
      simp [Lowering.addStore, Realization.store, Realization.declaration, Realization.domains, hunit, harray]
  | false =>
    have hvars := NameSupply.freshList_draws .index h.shape.rank (l.names.fresh .array).2
    have hlen := NameSupply.length_freshList .index h.shape.rank (l.names.fresh .array).2
    have hboth := harray.trans hvars
    refine ⟨⟨index, r, h, (l.names.fresh .array).1,
      ((l.names.fresh .array).2.freshList .index h.shape.rank).1⟩, rfl, rfl, rfl, fun _ => hlen, ?_, ?_, ?_, ?_, ?_, ?_, ?_⟩ <;>
      simp [Lowering.addStore, Realization.store, Realization.declaration, Realization.domains, hunit]
    simpa using hboth

section Visit

variable {index : Nat} {os : List Realization} {l : Lowering} {r : Rule}

theorem take_succ_of_getElem? (hr : p.rules.rules[index]? = some r) :
    p.rules.rules.take (index + 1) = p.rules.rules.take index ++ [r] ∧
      (p.rules.rules.take index).length = index := by
  have hi := (List.getElem?_eq_some_iff.1 hr).1
  refine ⟨?_, by rw [List.length_take]; omega⟩
  rw [List.take_add_one, hr]
  rfl

theorem Walked.dueAt_eq (hl : p.Walked outputs index os l) :
    dueAt p.pending os index = p.pending.filter fun e => e.1 = index := by
  have hnone : os.filter (fun o => o.index = index) = [] := by
    rw [List.filter_eq_nil_iff]
    intro o ho
    have := (hl.sound o ho).1
    simpa using by omega
  rw [dueAt, hnone, List.map_nil, List.append_nil]

theorem agenda_append_self (pending : List (Nat × Statement)) (os : List Realization) (o : Realization) :
    agenda pending (os ++ [o]) (o.index + 1) = agenda pending os (o.index + 1) ++ [(o.index, o.store)] := by
  have hdue : dueAt pending (os ++ [o]) o.index = dueAt pending os o.index ++ [(o.index, o.store)] := by simp [dueAt]
  rw [agenda, agenda, agenda_append (Nat.le_refl _), hdue, List.append_assoc]

theorem Walked.rules_of_seen (hl : p.Walked outputs index os l) {t : BackingTable}
    (hseen : ∀ i, i ≤ index → Expr.loadBacked t i = Expr.loadBacked l.backing i) :
    l.rules = (p.rules.rules.take index).mapIdx fun i r => r.loadBacked t i := by
  rw [hl.rules]
  refine List.mapIdx_eq_mapIdx_iff.2 fun i hi => ?_
  have hle : i ≤ index := by
    rw [List.length_take] at hi
    omega
  rw [Rule.loadBacked, Rule.loadBacked, hseen i hle]

theorem Walked.statements_of_seen (hl : p.Walked outputs index os l) {t : BackingTable}
    (hseen : ∀ i, i ≤ index → Expr.loadBacked t i = Expr.loadBacked l.backing i) :
    (l.flush p.pending index).statements = (agenda p.pending os (index + 1)).map fun e => e.2.loadBacked t e.1 := by
  have hkeep : ∀ e : Nat × Statement, e.1 ≤ index → e.2.loadBacked l.backing e.1 = e.2.loadBacked t e.1 := by
    intro e he
    rw [Statement.loadBacked, Statement.loadBacked, hseen e.1 he]
  rw [statements_flush, ← hl.dueAt_eq, hl.statements, ← List.map_append, agenda]
  refine List.map_congr_left fun e he => hkeep e ?_
  rcases List.mem_append.1 he with he | he
  · exact Nat.le_of_lt (mem_agenda_iff.1 he).1
  · exact Nat.le_of_eq (mem_dueAt_iff.1 he).1

theorem Walked.not_mem_backed (hp : p.WellFormed) (hl : p.Walked outputs index os l) (hr : p.rules.rules[index]? = some r)
    {h : Handle} (hreq : p.requestedIn outputs r.name = some h) : r.name ∉ l.backing.entries.map Prod.fst := by
  rw [hl.backing, List.map_append, List.mem_append]
  rintro (hmem | hmem)
  · rw [requestedIn] at hreq
    split at hreq
    · cases hreq
    · rename_i hcontains
      refine BackingTable.find?_eq_none_iff.1 ?_ hmem
      simpa [BackingTable.contains] using hcontains
  · obtain ⟨e, he, hname⟩ := List.mem_map.1 hmem
    obtain ⟨o, ho, rfl⟩ := List.mem_map.1 he
    obtain ⟨hlt, hr', _⟩ := hl.sound o ho
    exact Nat.ne_of_lt hlt (hp.index_inj hr' hr hname)

theorem Walked.skip (hl : p.Walked outputs index os l) (hr : p.rules.rules[index]? = some r)
    (hreq : p.requestedIn outputs r.name = none) :
    p.Walked outputs (index + 1) os ((l.flush p.pending index).record index r) where
  sorted := hl.sorted
  sound o ho := ⟨Nat.lt_succ_of_lt (hl.sound o ho).1, (hl.sound o ho).2⟩
  complete i r' hi hr' hsome := by
    rcases Nat.lt_succ_iff_lt_or_eq.1 hi with hi | rfl
    · exact hl.complete i r' hi hr' hsome
    · rw [hr] at hr'
      cases hr'
      rw [hreq] at hsome
      cases hsome
  draws := hl.draws
  backing := hl.backing
  domains := hl.domains
  arrays := hl.arrays
  rules := by
    obtain ⟨htake, hlen⟩ := take_succ_of_getElem? hr
    rw [htake, List.mapIdx_append, hlen]
    simp [Lowering.record, Lowering.flush, hl.rules]
  statements := hl.statements_of_seen fun _ _ => rfl
  stores := hl.stores

theorem Walked.realize (hp : p.WellFormed) (hl : p.Walked outputs index os l) {h : Handle}
    (hr : p.rules.rules[index]? = some r) (hreq : p.requestedIn outputs r.name = some h) :
    ∃ os', p.Walked outputs (index + 1) os'
      (((l.flush p.pending index).record index r).realize index r h) := by
  obtain ⟨htake, hlen⟩ := take_succ_of_getElem? hr
  obtain ⟨o, rfl, rfl, rfl, hvars, hdraws, hstatements, harrays, hdomains, hrules, hstores, hbacking⟩ :=
    exists_realization ((l.flush p.pending index).record index r) index r h
  generalize ((l.flush p.pending o.index).record o.index o.rule).realize o.index o.rule o.handle = l' at *
  have hentries : l'.backing = ⟨l.backing.entries ++ [o.entry]⟩ := by
    rw [hbacking]
    exact BackingTable.insert_of_not_mem (hl.not_mem_backed hp hr hreq) o.array (o.index + 1)
  -- the new array is seen only behind its rule, so what was put in place before stays as it is
  have hseen : ∀ i, i ≤ o.index → Expr.loadBacked l'.backing i = Expr.loadBacked l.backing i := by
    intro i hi
    refine loadBacked_congr fun rule => ?_
    rw [hentries]
    refine BackingTable.arrayAt?_append (t := l.backing) (fun e he => ?_) rule
    obtain rfl := List.mem_singleton.1 he
    exact Nat.lt_succ_of_le hi
  exact ⟨os ++ [o],
    { sorted := by
        rw [List.map_append]
        refine List.pairwise_append.2 ⟨hl.sorted, by simp, fun a ha b hb => ?_⟩
        obtain ⟨o', ho', rfl⟩ := List.mem_map.1 ha
        obtain rfl : b = o.index := by simpa using hb
        exact (hl.sound o' ho').1
      sound := by
        intro o' ho'
        rcases List.mem_append.1 ho' with ho' | ho'
        · exact ⟨Nat.lt_succ_of_lt (hl.sound o' ho').1, (hl.sound o' ho').2⟩
        · obtain rfl := List.mem_singleton.1 ho'
          exact ⟨Nat.lt_succ_self _, hr, hreq, hvars⟩
      complete := by
        intro i r' hi hr' hsome
        rcases Nat.lt_succ_iff_lt_or_eq.1 hi with hi | rfl
        · obtain ⟨o', ho', hindex⟩ := hl.complete i r' hi hr' hsome
          exact ⟨o', List.mem_append_left _ ho', hindex⟩
        · exact ⟨o, by simp, rfl⟩
      draws := by
        rw [List.flatMap_append, List.flatMap_singleton]
        exact hl.draws.trans hdraws
      backing := by
        rw [hentries, List.map_append, ← List.append_assoc, ← hl.backing]
        rfl
      domains := by
        rw [hdomains, List.flatMap_append, List.flatMap_singleton, ← List.append_assoc, ← hl.domains]
        rfl
      arrays := by
        rw [harrays, List.map_append, ← List.append_assoc, ← hl.arrays]
        rfl
      rules := by
        have hlast : o.rule.loadBacked l'.backing o.index = o.rule.loadBacked l.backing o.index := by
          rw [Rule.loadBacked, Rule.loadBacked, hseen o.index (Nat.le_refl _)]
        rw [hrules, htake, List.mapIdx_append, hlen, ← hl.rules_of_seen hseen, List.mapIdx_singleton, Nat.zero_add, hlast]
        rfl
      statements := by
        have hlast : o.store.loadBacked l'.backing o.index = o.store.loadBacked l.backing o.index := by
          rw [Statement.loadBacked, Statement.loadBacked, hseen o.index (Nat.le_refl _)]
        have hflush : ((l.flush p.pending o.index).record o.index o.rule).statements = _ := hl.statements_of_seen hseen
        rw [hstatements, hflush, agenda_append_self, List.map_append, List.map_singleton, hlast]
        rfl
      stores := by
        rw [hstores, List.map_append, ← hl.stores]
        rfl }⟩

theorem Walked.walk (hp : p.WellFormed) {index : Nat} {os : List Realization} {l : Lowering} {rest : List Rule}
    (hl : p.Walked outputs index os l) (hrest : p.rules.rules.drop index = rest) (hindex : index ≤ p.rules.size) :
    ∃ os' l', p.Walked outputs p.rules.size os' l' ∧
      Lowering.walk p.pending (p.requestedIn outputs) index rest l = l'.flush p.pending p.rules.size := by
  induction rest generalizing index os l with
  | nil =>
    obtain rfl : index = p.rules.size := by
      have := List.drop_eq_nil_iff.1 hrest
      exact Nat.le_antisymm hindex this
    exact ⟨os, l, hl, rfl⟩
  | cons r rest ih =>
    have hr : p.rules.rules[index]? = some r := by
      rw [← List.head?_drop, hrest, List.head?_cons]
    have hrest' : p.rules.rules.drop (index + 1) = rest := by
      rw [← List.drop_drop, hrest]
      rfl
    have hlt := (List.getElem?_eq_some_iff.1 hr).1
    rw [Lowering.walk, Lowering.visit]
    cases hreq : p.requestedIn outputs r.name with
    | none => exact ih (hl.skip hr hreq) hrest' hlt
    | some h =>
      obtain ⟨os', hl'⟩ := hl.realize hp hr hreq
      exact ih hl' hrest' hlt

end Visit

/-- Lowering the plan for the requested handles gave the kernel and left the second plan. -/
structure Lowers (p : Plan) (outputs : List Handle) (os : List Realization) (k : Kernel) (p' : Plan) : Prop where
  isOpen : p.finalized = false
  own : ∀ h ∈ outputs, h.plan = p.id
  registered : ∀ h ∈ outputs, h.rule ∈ ruleNames p.rules.rules
  sorted : (os.map Realization.index).Pairwise (· < ·)
  sound : ∀ o ∈ os, p.rules.rules[o.index]? = some o.rule ∧
    p.requestedIn outputs o.rule.name = some o.handle ∧
    (o.handle.shape.isUnit = false → o.vars.length = o.handle.shape.rank)
  complete : ∀ (i : Nat) (r : Rule), p.rules.rules[i]? = some r →
    (p.requestedIn outputs r.name).isSome → ∃ o ∈ os, o.index = i
  draws : p.names.Draws p'.names (os.flatMap fun o => o.array :: o.vars)
  backing : p'.backing.entries = p.backing.entries ++ os.map Realization.entry
  domains : k.domains = p.domains ++ os.flatMap Realization.domains
  arrays : k.arrays = p.arrays ++ os.map Realization.declaration
  rules : k.rules = p.rules.rules.mapIdx fun i r => r.loadBacked p'.backing i
  statements : k.statements =
    (agenda p.pending os (p.rules.size + 1)).map fun e => e.2.loadBacked p'.backing e.1
  bound : bindings p'.backing outputs = .ok k.outputs

theorem contains_iff {l : RuleLog} {name : String} : l.contains name = true ↔ name ∈ ruleNames l.rules := by
  simp [RuleLog.contains, ruleNames]

theorem exists_lowered (hp : p.WellFormed) (outputs : List Handle) :
    ∃ os l, p.Walked outputs p.rules.size os l ∧ p.lowered outputs = l.flush p.pending p.rules.size :=
  (p.walked_zero outputs).walk hp rfl (Nat.zero_le _)

theorem requestedIn_eq_some {outputs : List Handle} {rule : String} {h : Handle}
    (hreq : p.requestedIn outputs rule = some h) : h ∈ outputs ∧ h.rule = rule ∧ p.backing.find? rule = none := by
  unfold requestedIn at hreq
  split at hreq
  · cases hreq
  · rename_i hcontains
    refine ⟨List.mem_reverse.1 (List.mem_of_find?_eq_some hreq), by simpa using List.find?_some hreq, ?_⟩
    simpa [BackingTable.contains] using hcontains

theorem requestedIn_isSome {outputs : List Handle} {h : Handle} (hh : h ∈ outputs)
    (hnone : p.backing.find? h.rule = none) : (p.requestedIn outputs h.rule).isSome := by
  unfold requestedIn
  rw [BackingTable.contains, hnone, if_neg (by simp), List.find?_isSome]
  exact ⟨h, List.mem_reverse.2 hh, by simp⟩

theorem exists_bindings {outputs : List Handle} {backing : BackingTable}
    (h : ∀ a ∈ outputs, ∃ array, backing.array? a.rule = some array) : ∃ bound, bindings backing outputs = .ok bound := by
  suffices hall : ∃ bound, outputs.mapM (bindingOf backing) = .ok bound by
    obtain ⟨bound, hbound⟩ := hall
    exact ⟨bound.eraseDups, by rw [bindings, hbound]; rfl⟩
  induction outputs with
  | nil => exact ⟨[], rfl⟩
  | cons a outputs ih =>
    obtain ⟨bound, hbound⟩ := ih fun b hb => h b (List.mem_cons_of_mem a hb)
    obtain ⟨array, harray⟩ := h a List.mem_cons_self
    refine ⟨⟨a.rule, array⟩ :: bound, ?_⟩
    rw [List.mapM_cons, bindingOf, harray, hbound]
    rfl

theorem Walked.exists_array {outputs : List Handle} {os : List Realization} {l : Lowering}
    (hl : p.Walked outputs p.rules.size os l) {a : Handle} (ha : a ∈ outputs) (hrule : a.rule ∈ ruleNames p.rules.rules) :
    ∃ array, l.backing.array? a.rule = some array := by
  suffices hcontains : a.rule ∈ l.backing.entries.map Prod.fst by
    cases hfind : l.backing.find? a.rule with
    | none => exact absurd hcontains (BackingTable.find?_eq_none_iff.1 hfind)
    | some entry => exact ⟨entry.array, by rw [BackingTable.array?, hfind]; rfl⟩
  rw [hl.backing, List.map_append]
  cases hfind : p.backing.find? a.rule with
  | some entry => exact List.mem_append_left _ (List.mem_map.2 ⟨_, BackingTable.mem_of_find? hfind, rfl⟩)
  | none =>
    obtain ⟨r, hr, hname⟩ := List.mem_map.1 hrule
    obtain ⟨i, hi⟩ := List.mem_iff_getElem?.1 hr
    obtain ⟨o, ho, rfl⟩ := hl.complete i r (List.getElem?_eq_some_iff.1 hi).1 hi (hname ▸ requestedIn_isSome ha hfind)
    obtain rfl := Option.some.inj (hi.symm.trans (hl.sound o ho).2.1)
    exact List.mem_append_right _ (List.mem_map.2 ⟨o.entry, List.mem_map_of_mem ho, hname⟩)

theorem exists_bindings_lowered (hp : p.WellFormed) {outputs : List Handle}
    (hrules : ∀ a ∈ outputs, a.rule ∈ ruleNames p.rules.rules) :
    ∃ bound, bindings (p.lowered outputs).backing outputs = .ok bound := by
  obtain ⟨os, l, hl, hlowered⟩ := exists_lowered hp outputs
  refine exists_bindings fun a ha => ?_
  rw [hlowered]
  exact hl.exists_array ha (hrules a ha)

end Plan

namespace Build.Outcome

variable {start p : Plan}

theorem forM_requireOwn {outputs : List Handle} {Q : PUnit → Plan → Prop} (hstart : start.OnlyDraws p)
    (h : (∀ a ∈ outputs, a.plan = p.id) → Q ⟨⟩ p) : Outcome start (outputs.forM Build.requireOwn) p Q := by
  induction outputs with
  | nil => exact pure (h (by simp))
  | cons a outputs ih =>
    have hcons : (a :: outputs).forM Build.requireOwn =
        Build.requireOwn a >>= fun _ => outputs.forM Build.requireOwn := rfl
    rw [hcons]
    refine bind (requireOwn hstart fun hown => ih fun hrest => h fun b hb => ?_)
    rcases List.mem_cons.1 hb with rfl | hb
    · exact hown
    · exact hrest b hb

theorem set {q : Plan} {Q : PUnit → Plan → Prop} (h : Q ⟨⟩ q) : Outcome start (MonadStateOf.set q) p Q :=
  h

theorem modify {f : Plan → Plan} {Q : PUnit → Plan → Prop} (h : Q ⟨⟩ (f p)) :
    Outcome start (MonadState.modifyGet fun p => (⟨⟩, f p)) p Q :=
  h

/-- What lowering gives and leaves, in terms of the walk. When the bindings are looked up the queue is gone already, so
a refusal there would not leave the plan as it was; none comes, as each registered rule has an array by then. -/
theorem finalize_lowered (hp : p.WellFormed) (outputs : List Handle) (withStores : Bool) :
    Outcome p (Build.finalize outputs withStores) p fun k p' =>
      (p.finalized = false ∧ ∀ a ∈ outputs, a.plan = p.id ∧ a.rule ∈ ruleNames p.rules.rules) ∧
      Plan.bindings (p.lowered outputs).backing outputs = .ok k.outputs ∧
      k = ⟨(p.lowered outputs).domains, (p.lowered outputs).statements, (p.lowered outputs).arrays,
        (p.lowered outputs).rules, k.outputs, if withStores then some (p.lowered outputs).stores else none⟩ ∧
      p' = { p with
        names := (p.lowered outputs).names, backing := (p.lowered outputs).backing, pending := [], finalized := true } := by
  refine bind (forM_requireOwn (.refl p) fun hown => bind (requireOpen (fun _ => .refl p) fun hopen => bind (get ?_)))
  cases hfind : outputs.find? fun h => !p.rules.contains h.rule with
  | some h => exact throw (.refl p)
  | none =>
    have hrules : ∀ a ∈ outputs, a.rule ∈ ruleNames p.rules.rules := fun a ha =>
      Plan.contains_iff.1 (by simpa using List.find?_eq_none.1 hfind a ha)
    obtain ⟨bound, hbound⟩ := Plan.exists_bindings_lowered hp hrules
    dsimp only
    rw [hbound]
    exact bind (set (bind (modify (pure ⟨⟨hopen, fun a ha => ⟨hown a ha, hrules a ha⟩⟩, rfl, rfl, rfl⟩))))

theorem finalize_stores (hp : p.WellFormed) (outputs : List Handle) (withStores : Bool) :
    Outcome p (Build.finalize outputs withStores) p fun k p' => ∃ os, p.Lowers outputs os k p' ∧
      k.stores = if withStores then some (os.map fun o => (o.rule.name, o.store.within)) else none := by
  obtain ⟨os, l, hl, hlowered⟩ := Plan.exists_lowered hp outputs
  refine (finalize_lowered hp outputs withStores).mono ?_
  rintro k _ ⟨⟨hopen, houtputs⟩, hbound, hkernel, rfl⟩
  rw [hlowered] at hbound hkernel ⊢
  refine ⟨os, ?_, ?_⟩
  · constructor
    case isOpen => exact hopen
    case own => exact fun a ha => (houtputs a ha).1
    case registered => exact fun a ha => (houtputs a ha).2
    case sorted => exact hl.sorted
    case sound => exact fun o ho => (hl.sound o ho).2
    case complete => exact fun i r hr hsome => hl.complete i r (List.getElem?_eq_some_iff.1 hr).1 hr hsome
    case draws => exact hl.draws
    case backing => exact hl.backing
    case domains =>
      rw [hkernel]
      exact hl.domains
    case arrays =>
      rw [hkernel]
      exact hl.arrays
    case rules =>
      have hrules := hl.rules
      rw [RuleLog.size, List.take_length] at hrules
      rw [hkernel]
      exact hrules
    case statements =>
      rw [hkernel, Plan.statements_flush, agenda, hl.dueAt_eq, List.map_append, hl.statements]
      rfl
    case bound => exact hbound
  · rw [hkernel]
    cases withStores with
    | false => rfl
    | true => exact congrArg some hl.stores

theorem finalize (hp : p.WellFormed) (outputs : List Handle) (withStores : Bool) :
    Outcome p (Build.finalize outputs withStores) p fun k p' => ∃ os, p.Lowers outputs os k p' :=
  (finalize_stores hp outputs withStores).mono fun _ _ ⟨os, hlowers, _⟩ => ⟨os, hlowers⟩

end Build.Outcome

namespace Plan

theorem finalize_lowers {p p' : Plan} (hp : p.WellFormed) {outputs : List Handle} {withStores : Bool} {k : Kernel}
    (h : (Build.finalize outputs withStores).runOn p = (.ok k, p')) : ∃ os, p.Lowers outputs os k p' :=
  (Build.Outcome.finalize hp outputs withStores).of_runOn_ok h

namespace Lowers

variable {p p' : Plan} {outputs : List Handle} {os : List Realization} {k : Kernel}

theorem rule_at (h : p.Lowers outputs os k p') {i : Nat} {r : Rule} (hr : k.rules[i]? = some r) :
    ∃ r', p.rules.rules[i]? = some r' ∧ r = r'.loadBacked p'.backing i := by
  rw [h.rules, List.getElem?_mapIdx] at hr
  obtain ⟨r', hr', hsame⟩ := Option.map_eq_some_iff.1 hr
  exact ⟨r', hr', hsame.symm⟩

theorem ruleNames_take (h : p.Lowers outputs os k p') (i : Nat) :
    ruleNames (k.rules.take i) = ruleNames (p.rules.rules.take i) := by
  have hall : ruleNames k.rules = ruleNames p.rules.rules := by
    refine List.ext_getElem? fun j => ?_
    rw [h.rules, ruleNames, ruleNames, List.getElem?_map, List.getElem?_map, List.getElem?_mapIdx, Option.map_map]
    rfl
  rw [ruleNames, ruleNames, List.map_take, List.map_take]
  exact congrArg (List.take i) hall

def Loadable (p : Plan) (os : List Realization) (index : Nat) (array : String) : Prop :=
  array ∈ arrayNames p.arrays ∨ ∃ o ∈ os, o.index < index ∧ array = o.array

theorem loadable_of_arrayAt? (hp : p.WellFormed) (h : p.Lowers outputs os k p') {rule array : String} {i : Nat}
    (harray : p'.backing.arrayAt? rule i = some array) : Loadable p os i array := by
  obtain ⟨entry, hmem, hvisible, rfl⟩ := BackingTable.exists_entry_of_arrayAt? harray
  rw [h.backing] at hmem
  rcases List.mem_append.1 hmem with hmem | hmem
  · exact .inl (hp.backed _ hmem).2.1
  · obtain ⟨o, ho, heq⟩ := List.mem_map.1 hmem
    obtain rfl : (⟨o.array, o.index + 1⟩ : BackingEntry) = entry := congrArg Prod.snd heq
    exact .inr ⟨o, ho, hvisible, rfl⟩

theorem body_within (hp : p.WellFormed) (h : p.Lowers outputs os k p') {i : Nat} {r : Rule}
    (hr : k.rules[i]? = some r) :
    r.body.Within (· ∈ ruleNames (k.rules.take i)) (Loadable p os i) (Owned p.domains) := by
  obtain ⟨r', hr', rfl⟩ := h.rule_at hr
  have hbody := hp.bodies i r' hr'
  rw [← h.ruleNames_take] at hbody
  exact hbody.loadBacked (fun a ha => .inl ha) (fun _ hname _ => hname)
    fun _ _ _ harray => loadable_of_arrayAt? hp h harray

theorem layered (hp : p.WellFormed) (h : p.Lowers outputs os k p') : Kernel.Layered k.rules where
  nodup := by
    have hnames := h.ruleNames_take k.rules.length
    rw [List.take_length] at hnames
    have hlen : k.rules.length = p.rules.rules.length := by rw [h.rules, List.length_mapIdx]
    rw [hlen, List.take_length] at hnames
    rw [← ruleNames, hnames]
    exact hp.rules_nodup
  earlier i r hr := (body_within hp h hr).mono (fun _ h => h) (fun _ _ => trivial) fun _ _ => trivial

end Lowers

end Plan

end ArrayPlan
