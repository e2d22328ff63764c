import ArrayPlan.Proofs.Interpretation
import ArrayPlan.Proofs.Steps

/-!
Growth of plans. Whatever an operation does to a plan, it only appends: domains, arrays, statements queued at
the present end of the rule log, at most one rule, and arrays for rules that are seen from then on. A growth
that fits a well-formed plan leaves it well-formed.
-/

namespace ArrayPlan

namespace BackingTable

theorem find?_eq_none_iff {t : BackingTable} {rule : String} :
    t.find? rule = none ↔ rule ∉ t.entries.map Prod.fst := by
  rw [find?, List.lookup_eq_none_iff]
  constructor
  · intro h hmem
    obtain ⟨e, he, rfl⟩ := List.mem_map.1 hmem
    simpa using h e he
  · intro h e he
    simpa using fun heq : rule = e.1 => h (heq ▸ List.mem_map_of_mem he)

theorem insert_of_not_mem {t : BackingTable} {rule : String} (h : rule ∉ t.entries.map Prod.fst)
    (array : String) (visibleFrom : Nat) :
    t.insert rule array visibleFrom = ⟨t.entries ++ [(rule, ⟨array, visibleFrom⟩)]⟩ := by
  simp [insert, contains, find?_eq_none_iff.2 h]

theorem not_mem_of_array?_eq_none {t : BackingTable} {rule : String} (h : t.array? rule = none) :
    rule ∉ t.entries.map Prod.fst :=
  find?_eq_none_iff.1 (Option.map_eq_none_iff.1 h)

theorem find?_of_mem {t : BackingTable} (hnodup : (t.entries.map Prod.fst).Nodup) {e : String × BackingEntry}
    (he : e ∈ t.entries) : t.find? e.1 = some e.2 := by
  obtain ⟨before, after, hsplit⟩ := List.append_of_mem he
  refine List.lookup_eq_some_iff.2 ⟨before, after, hsplit, fun e' he' => ?_⟩
  rw [hsplit, List.map_append] at hnodup
  have hne := (List.nodup_append.1 hnodup).2.2 e'.1 (List.mem_map_of_mem he') e.1 (by simp)
  exact bne_iff_ne.2 hne.symm

theorem mem_of_find? {t : BackingTable} {rule : String} {entry : BackingEntry} (h : t.find? rule = some entry) :
    (rule, entry) ∈ t.entries := by
  obtain ⟨before, after, hsplit, _⟩ := List.lookup_eq_some_iff.1 h
  simp [hsplit]

theorem exists_entry_of_arrayAt? {t : BackingTable} {rule array : String} {i : Nat}
    (h : t.arrayAt? rule i = some array) :
    ∃ entry, (rule, entry) ∈ t.entries ∧ entry.visibleFrom ≤ i ∧ entry.array = array := by
  unfold arrayAt? at h
  split at h
  · rename_i entry hentry
    split at h
    · rename_i hvisible
      exact ⟨entry, mem_of_find? hentry, hvisible, Option.some.inj h⟩
    · cases h
  · cases h

end BackingTable

/-- What one step of an operation appends to a plan. -/
structure Growth where
  names : NameSupply
  domains : List Domain
  arrays : List Declaration
  statements : List Statement
  rule : Option Rule
  backed : List (String × String)

def Plan.grow (p : Plan) (g : Growth) : Plan :=
  { p with
    names := g.names
    rules := ⟨p.rules.rules ++ g.rule.toList⟩
    domains := p.domains ++ g.domains
    backing := ⟨p.backing.entries ++
      g.backed.map fun b => (b.1, ⟨b.2, (p.rules.rules ++ g.rule.toList).length⟩)⟩
    pending := p.pending ++ g.statements.map fun s => (p.rules.size, s)
    arrays := p.arrays ++ g.arrays }

def ruleNames (rules : List Rule) : List String :=
  rules.map Rule.name

def arrayNames (arrays : List Declaration) : List String :=
  arrays.map Declaration.name

def Owned (domains : List Domain) (var : String) : Prop :=
  ∃ d ∈ domains, var ∈ d.vars

/-- The statement stores into one of the arrays, and evaluates nothing but calls of the rules. -/
structure Statement.Scoped (s : Statement) (rules arrays vars : String → Prop) : Prop where
  target : ∃ array index, s.target = .load array index ∧ arrays array ∧
    Expr.WithinAll rules (fun _ => False) vars index
  value : s.value.Within rules (fun _ => False) vars
  vars : ∀ v ∈ s.within, vars v

theorem Statement.Scoped.mono {s : Statement} {rules rules' arrays arrays' vars vars' : String → Prop}
    (h : s.Scoped rules arrays vars) (hr : ∀ r, rules r → rules' r) (ha : ∀ a, arrays a → arrays' a)
    (hv : ∀ v, vars v → vars' v) : s.Scoped rules' arrays' vars' where
  target := by
    obtain ⟨array, index, htarget, harray, hindex⟩ := h.target
    exact ⟨array, index, htarget, ha array harray, hindex.mono hr (fun _ hf => hf) hv⟩
  value := h.value.mono hr (fun _ hf => hf) hv
  vars v hv' := hv v (h.vars v hv')

namespace Plan

structure WellFormed (p : Plan) : Prop where
  rules_nodup : (ruleNames p.rules.rules).Nodup
  rules_taken : ∀ name ∈ ruleNames p.rules.rules, name ∈ p.names.taken
  arrays_nodup : (arrayNames p.arrays).Nodup
  arrays_taken : ∀ name ∈ arrayNames p.arrays, name ∈ p.names.taken
  vars_nodup : (p.domains.flatMap Domain.vars).Nodup
  vars_taken : ∀ v ∈ p.domains.flatMap Domain.vars, v ∈ p.names.taken
  bodies : ∀ (i : Nat) (r : Rule), p.rules.rules[i]? = some r →
    r.body.Within (· ∈ ruleNames (p.rules.rules.take i)) (· ∈ arrayNames p.arrays) (Owned p.domains)
  sorted : (p.pending.map Prod.fst).Pairwise (· ≤ ·)
  pending : ∀ e ∈ p.pending, e.1 ≤ p.rules.size ∧
    e.2.Scoped (· ∈ ruleNames (p.rules.rules.take e.1)) (· ∈ arrayNames p.arrays) (Owned p.domains)
  backed_nodup : (p.backing.entries.map Prod.fst).Nodup
  backed : ∀ e ∈ p.backing.entries, e.2.visibleFrom ≤ p.rules.size ∧ e.2.array ∈ arrayNames p.arrays ∧
    e.1 ∈ ruleNames (p.rules.rules.take e.2.visibleFrom)

theorem empty_wellFormed (id : Nat) (settings : Settings) : (empty id settings).WellFormed := by
  constructor <;> simp [empty, RuleLog.empty, BackingTable.empty, ruleNames, arrayNames]

theorem OnlyDraws.wellFormed {p p' : Plan} (h : p.OnlyDraws p') (hp : p.WellFormed) : p'.WellFormed := by
  obtain ⟨⟨issued, hdraws⟩, hsame⟩ := h
  rw [hsame]
  exact { hp with
    rules_taken := fun name hname => hdraws.taken_mono (hp.rules_taken name hname)
    arrays_taken := fun name hname => hdraws.taken_mono (hp.arrays_taken name hname)
    vars_taken := fun v hv => hdraws.taken_mono (hp.vars_taken v hv) }

end Plan

/-- The new names are those drawn, and new expressions refer to what is there. -/
structure Growth.Fits (g : Growth) (p : Plan) (issued : List String) : Prop where
  draws : p.names.Draws g.names issued
  domains_nodup : (g.domains.flatMap Domain.vars).Nodup
  domains : ∀ v ∈ g.domains.flatMap Domain.vars, v ∈ issued
  arrays_nodup : (arrayNames g.arrays).Nodup
  arrays : ∀ name ∈ arrayNames g.arrays, name ∈ issued
  statements : ∀ s ∈ g.statements, s.Scoped (· ∈ ruleNames p.rules.rules)
    (· ∈ arrayNames (p.arrays ++ g.arrays)) (Owned (p.domains ++ g.domains))
  rule : ∀ r, g.rule = some r → r.name ∈ issued ∧ r.body.Within (· ∈ ruleNames p.rules.rules)
    (· ∈ arrayNames (p.arrays ++ g.arrays)) (Owned (p.domains ++ g.domains))
  backed_nodup : (g.backed.map Prod.fst).Nodup
  backed : ∀ b ∈ g.backed, b.2 ∈ arrayNames (p.arrays ++ g.arrays) ∧
    b.1 ∈ ruleNames (p.rules.rules ++ g.rule.toList) ∧ b.1 ∉ p.backing.entries.map Prod.fst
  visible : g.backed ≠ [] → g.rule ≠ none

namespace Plan

theorem nodup_append_of_draws {names names' : NameSupply} {old new issued : List String}
    (hdraws : names.Draws names' issued) (hold : old.Nodup) (hnew : new.Nodup)
    (htaken : ∀ name ∈ old, name ∈ names.taken) (hissued : ∀ name ∈ new, name ∈ issued) :
    (old ++ new).Nodup :=
  List.nodup_append.2 ⟨hold, hnew, fun a ha b hb hab =>
    hdraws.unused b (hissued b hb) (hab ▸ htaken a ha)⟩

theorem taken_append_of_draws {names names' : NameSupply} {old new issued : List String}
    (hdraws : names.Draws names' issued) (htaken : ∀ name ∈ old, name ∈ names.taken)
    (hissued : ∀ name ∈ new, name ∈ issued) : ∀ name ∈ old ++ new, name ∈ names'.taken := by
  intro name hname
  rcases List.mem_append.1 hname with hname | hname
  · exact hdraws.taken_mono (htaken name hname)
  · exact hdraws.mem_taken (hissued name hname)

section Grow

variable {p : Plan} {g : Growth} {issued : List String}

theorem take_grow {i : Nat} (hi : i ≤ p.rules.size) : (p.grow g).rules.rules.take i = p.rules.rules.take i :=
  List.take_append_of_le_length hi

theorem take_size_grow : (p.grow g).rules.rules.take p.rules.size = p.rules.rules :=
  List.take_left

theorem rule_of_grow {i : Nat} {r : Rule} (hr : (p.grow g).rules.rules[i]? = some r) :
    (i < p.rules.size ∧ p.rules.rules[i]? = some r) ∨ (i = p.rules.size ∧ g.rule = some r) := by
  simp only [grow] at hr
  rcases Nat.lt_or_ge i p.rules.rules.length with hi | hi
  · rw [List.getElem?_append_left hi] at hr
    exact .inl ⟨hi, hr⟩
  · rw [List.getElem?_append_right hi] at hr
    cases hrule : g.rule with
    | none => simp [hrule] at hr
    | some r' =>
      rw [hrule, Option.toList_some] at hr
      obtain ⟨hlast, hsame⟩ := List.getElem?_eq_some_iff.1 hr
      rw [List.length_singleton] at hlast
      refine .inr ⟨by rw [RuleLog.size]; omega, ?_⟩
      rw [← hsame, List.getElem_singleton]

theorem WellFormed.grow (hp : p.WellFormed) (hg : g.Fits p issued) : (p.grow g).WellFormed := by
  have hrules : ∀ name ∈ ruleNames g.rule.toList, name ∈ issued := by
    intro name hname
    obtain ⟨r, hr, rfl⟩ := List.mem_map.1 hname
    exact (hg.rule r (by simpa using hr)).1
  have hrules_nodup : (ruleNames g.rule.toList).Nodup := by
    cases g.rule <;> simp [ruleNames]
  have harrays : ∀ name ∈ arrayNames p.arrays, name ∈ arrayNames (p.arrays ++ g.arrays) := by
    intro name hname
    simp only [arrayNames, List.map_append]
    exact List.mem_append_left _ hname
  have hvars : ∀ v, Owned p.domains v → Owned (p.domains ++ g.domains) v :=
    fun v ⟨d, hd, hv⟩ => ⟨d, List.mem_append_left _ hd, hv⟩
  have hsize : p.rules.size ≤ (p.grow g).rules.size := by
    simp only [Plan.grow, RuleLog.size, List.length_append]
    omega
  constructor
  case rules_nodup =>
    simp only [Plan.grow, ruleNames, List.map_append]
    exact nodup_append_of_draws hg.draws hp.rules_nodup hrules_nodup hp.rules_taken hrules
  case rules_taken =>
    simp only [Plan.grow, ruleNames, List.map_append]
    exact taken_append_of_draws hg.draws hp.rules_taken hrules
  case arrays_nodup =>
    simp only [Plan.grow, arrayNames, List.map_append]
    exact nodup_append_of_draws hg.draws hp.arrays_nodup hg.arrays_nodup hp.arrays_taken hg.arrays
  case arrays_taken =>
    simp only [Plan.grow, arrayNames, List.map_append]
    exact taken_append_of_draws hg.draws hp.arrays_taken hg.arrays
  case vars_nodup =>
    simp only [Plan.grow, List.flatMap_append]
    exact nodup_append_of_draws hg.draws hp.vars_nodup hg.domains_nodup hp.vars_taken hg.domains
  case vars_taken =>
    simp only [Plan.grow, List.flatMap_append]
    exact taken_append_of_draws hg.draws hp.vars_taken hg.domains
  case bodies =>
    intro i r hr
    rcases rule_of_grow hr with ⟨hi, hr⟩ | ⟨rfl, hrule⟩
    · rw [take_grow (Nat.le_of_lt hi)]
      exact (hp.bodies i r hr).mono (fun _ h => h) harrays hvars
    · rw [take_size_grow]
      exact (hg.rule r hrule).2
  case sorted =>
    simp only [Plan.grow, List.map_append, List.map_map]
    refine List.pairwise_append.2 ⟨hp.sorted, ?_, ?_⟩
    · refine List.pairwise_map.2 (List.pairwise_of_forall fun _ _ => ?_)
      simp
    · intro a ha b hb
      obtain ⟨e, he, rfl⟩ := List.mem_map.1 ha
      obtain ⟨s, _, rfl⟩ := List.mem_map.1 hb
      exact (hp.pending e he).1
  case pending =>
    intro e he
    rcases List.mem_append.1 he with he | he
    · obtain ⟨hle, hscoped⟩ := hp.pending e he
      refine ⟨Nat.le_trans hle hsize, ?_⟩
      rw [take_grow hle]
      exact hscoped.mono (fun _ h => h) harrays hvars
    · obtain ⟨s, hs, rfl⟩ := List.mem_map.1 he
      refine ⟨hsize, ?_⟩
      rw [take_size_grow]
      exact hg.statements s hs
  case backed_nodup =>
    simp only [Plan.grow, List.map_append, List.map_map]
    refine List.nodup_append.2 ⟨hp.backed_nodup, hg.backed_nodup, fun a ha b hb hab => ?_⟩
    obtain ⟨e, he, rfl⟩ := List.mem_map.1 hb
    have hkey : a = e.1 := hab
    exact (hg.backed e he).2.2 (hkey ▸ ha)
  case backed =>
    intro e he
    rcases List.mem_append.1 he with he | he
    · obtain ⟨hle, harray, hrule⟩ := hp.backed e he
      refine ⟨Nat.le_trans hle hsize, harrays _ harray, ?_⟩
      rwa [take_grow hle]
    · obtain ⟨b, hb, rfl⟩ := List.mem_map.1 he
      obtain ⟨harray, hrule, _⟩ := hg.backed b hb
      exact ⟨Nat.le_refl _, harray, by rwa [Plan.grow, List.take_length]⟩

end Grow

/-- The second plan has come out of the first one by appending. What was appended is queued behind the rules
of the first, and is not seen at them. -/
structure Extends (p p' : Plan) : Prop where
  id : p'.id = p.id
  settings : p'.settings = p.settings
  finalized : p'.finalized = p.finalized
  names : ∃ issued, p.names.Draws p'.names issued
  rules : ∃ later, p'.rules.rules = p.rules.rules ++ later
  domains : ∃ later, p'.domains = p.domains ++ later
  arrays : ∃ later, p'.arrays = p.arrays ++ later
  pending : ∃ later, p'.pending = p.pending ++ later ∧ ∀ e ∈ later, p.rules.size ≤ e.1
  backed : ∃ later, p'.backing.entries = p.backing.entries ++ later ∧
    ∀ e ∈ later, p.rules.size < e.2.visibleFrom

namespace Extends

theorem refl (p : Plan) : p.Extends p where
  id := rfl
  settings := rfl
  finalized := rfl
  names := ⟨[], .refl _⟩
  rules := ⟨[], by simp⟩
  domains := ⟨[], by simp⟩
  arrays := ⟨[], by simp⟩
  pending := ⟨[], by simp⟩
  backed := ⟨[], by simp⟩

theorem size_le {p p' : Plan} (h : p.Extends p') : p.rules.size ≤ p'.rules.size := by
  obtain ⟨later, hlater⟩ := h.rules
  rw [RuleLog.size, RuleLog.size, hlater, List.length_append]
  omega

theorem trans {p p' p'' : Plan} (h : p.Extends p') (h' : p'.Extends p'') : p.Extends p'' where
  id := h'.id.trans h.id
  settings := h'.settings.trans h.settings
  finalized := h'.finalized.trans h.finalized
  names := by
    obtain ⟨issued, hd⟩ := h.names
    obtain ⟨issued', hd'⟩ := h'.names
    exact ⟨_, hd.trans hd'⟩
  rules := by
    obtain ⟨later, hl⟩ := h.rules
    obtain ⟨later', hl'⟩ := h'.rules
    exact ⟨later ++ later', by rw [hl', hl, List.append_assoc]⟩
  domains := by
    obtain ⟨later, hl⟩ := h.domains
    obtain ⟨later', hl'⟩ := h'.domains
    exact ⟨later ++ later', by rw [hl', hl, List.append_assoc]⟩
  arrays := by
    obtain ⟨later, hl⟩ := h.arrays
    obtain ⟨later', hl'⟩ := h'.arrays
    exact ⟨later ++ later', by rw [hl', hl, List.append_assoc]⟩
  pending := by
    obtain ⟨later, hl, hkeys⟩ := h.pending
    obtain ⟨later', hl', hkeys'⟩ := h'.pending
    refine ⟨later ++ later', by rw [hl', hl, List.append_assoc], fun e he => ?_⟩
    rcases List.mem_append.1 he with he | he
    · exact hkeys e he
    · exact Nat.le_trans h.size_le (hkeys' e he)
  backed := by
    obtain ⟨later, hl, hkeys⟩ := h.backed
    obtain ⟨later', hl', hkeys'⟩ := h'.backed
    refine ⟨later ++ later', by rw [hl', hl, List.append_assoc], fun e he => ?_⟩
    rcases List.mem_append.1 he with he | he
    · exact hkeys e he
    · exact Nat.lt_of_le_of_lt h.size_le (hkeys' e he)

end Extends

theorem OnlyDraws.extends {p p' : Plan} (h : p.OnlyDraws p') : p.Extends p' := by
  obtain ⟨hnames, hsame⟩ := h
  rw [hsame]
  exact { Extends.refl p with names := hnames }

theorem extends_grow {p : Plan} {g : Growth} {issued : List String} (hg : g.Fits p issued) :
    p.Extends (p.grow g) where
  id := rfl
  settings := rfl
  finalized := rfl
  names := ⟨issued, hg.draws⟩
  rules := ⟨_, rfl⟩
  domains := ⟨_, rfl⟩
  arrays := ⟨_, rfl⟩
  pending := ⟨_, rfl, fun e he => by
    obtain ⟨s, _, rfl⟩ := List.mem_map.1 he
    exact Nat.le_refl _⟩
  backed := ⟨_, rfl, fun e he => by
    obtain ⟨b, hb, rfl⟩ := List.mem_map.1 he
    cases hrule : g.rule with
    | none => exact absurd hrule (hg.visible (List.ne_nil_of_mem hb))
    | some r => simp [RuleLog.size]⟩

/-- A handle of the plan: its rule is registered and takes an index of the handle's rank, or nothing for a
scalar. -/
structure Live (p : Plan) (h : Handle) : Prop where
  own : h.plan = p.id
  rule : ∃ r, p.rules.find? h.rule = some r ∧ (r.arity = h.rank ∨ (r.arity = 0 ∧ h.shape = .unit))

theorem Live.takes {p : Plan} {h : Handle} (hlive : p.Live h) : p.Takes h.rule h.rank := by
  obtain ⟨r, hr, harity⟩ := hlive.rule
  exact ⟨r, hr, harity.imp (fun h => h) And.left⟩

theorem find?_grow {p : Plan} {g : Growth} {rule : String} {r : Rule} (hr : p.rules.find? rule = some r) :
    (p.grow g).rules.find? rule = some r := by
  unfold RuleLog.find? at hr ⊢
  rw [grow, List.find?_append, hr]
  rfl

theorem Extends.find? {p p' : Plan} (h : p.Extends p') {rule : String} {r : Rule} (hr : p.rules.find? rule = some r) :
    p'.rules.find? rule = some r := by
  obtain ⟨later, hlater⟩ := h.rules
  unfold RuleLog.find? at hr ⊢
  rw [hlater, List.find?_append, hr]
  rfl

theorem Extends.live {p p' : Plan} (h : p.Extends p') {a : Handle} (ha : p.Live a) : p'.Live a := by
  obtain ⟨r, hr, harity⟩ := ha.rule
  exact ⟨ha.own.trans h.id.symm, r, h.find? hr, harity⟩

theorem Extends.array? {p p' : Plan} (h : p.Extends p') {rule array : String}
    (harray : p.backing.array? rule = some array) : p'.backing.array? rule = some array := by
  obtain ⟨later, hlater, _⟩ := h.backed
  unfold BackingTable.array? BackingTable.find? at harray ⊢
  obtain ⟨entry, hentry, rfl⟩ := Option.map_eq_some_iff.1 harray
  rw [hlater, List.lookup_append, hentry]
  rfl

theorem Live.grow {p : Plan} {h : Handle} (hlive : p.Live h) (g : Growth) : (p.grow g).Live h := by
  obtain ⟨r, hr, harity⟩ := hlive.rule
  exact ⟨hlive.own, r, find?_grow hr, harity⟩

theorem OnlyDraws.live {p p' : Plan} (h : p.OnlyDraws p') {a : Handle} (hlive : p.Live a) : p'.Live a := by
  rw [h.same]
  exact ⟨hlive.own, hlive.rule⟩

theorem mem_ruleNames_of_find? {l : RuleLog} {rule : String} {r : Rule} (h : l.find? rule = some r) :
    rule ∈ ruleNames l.rules := by
  unfold RuleLog.find? at h
  have hname : r.name = rule := by simpa using List.find?_some h
  exact hname ▸ List.mem_map_of_mem (List.mem_of_find?_eq_some h)

theorem WellFormed.find?_of_mem {p : Plan} (hp : p.WellFormed) {r : Rule} (hr : r ∈ p.rules.rules) :
    p.rules.find? r.name = some r := by
  obtain ⟨i, hi, rfl⟩ := List.mem_iff_getElem.1 hr
  refine List.find?_eq_some_iff_getElem.2 ⟨by simp, i, hi, rfl, fun j hj => ?_⟩
  have hne := List.pairwise_iff_getElem.1 hp.rules_nodup j i (by simp [ruleNames]; omega)
    (by simpa [ruleNames] using hi) hj
  simpa [ruleNames] using hne

theorem WellFormed.index_inj {p : Plan} (hp : p.WellFormed) {i j : Nat} {r s : Rule}
    (hr : p.rules.rules[i]? = some r) (hs : p.rules.rules[j]? = some s) (hname : r.name = s.name) : i = j := by
  have hi := (List.getElem?_eq_some_iff.1 hr).1
  refine (List.getElem?_inj (by simpa [ruleNames] using hi) hp.rules_nodup).1 ?_
  rw [ruleNames, List.getElem?_map, List.getElem?_map, hr, hs, Option.map_some, Option.map_some, hname]

section Calls

variable {rules arrays vars : String → Prop}

theorem within_callOf {p : Plan} {rule : String} {args : List Expr} (hrule : rules rule)
    (hargs : Expr.WithinAll rules arrays vars args) : (p.callOf rule args).Within rules arrays vars := by
  unfold callOf
  split
  · split
    · exact ⟨hrule, trivial⟩
    · exact ⟨hrule, hargs⟩
  · exact ⟨hrule, hargs⟩

theorem within_callAtOrigin {p : Plan} {rule : String} (hrule : rules rule) :
    (p.callAtOrigin rule).Within rules arrays vars := by
  unfold callAtOrigin
  split
  · refine ⟨hrule, Expr.withinAll_iff.2 fun e he => ?_⟩
    rw [List.eq_of_mem_replicate he]
    trivial
  · exact ⟨hrule, trivial⟩

end Calls

end Plan

end ArrayPlan
