import ArrayPlan.Proofs.Assignments

/-!
Histories of arrays. The array that a handle is written to is not accounted for, since what it holds changes. Its
history is kept in place of this: the statements that store into it, each with what it stores.
-/

namespace ArrayPlan

namespace Plan

/-- The second plan comes out of the first one with the arrays of the first left alone: later statements store into
new arrays, and later entries back new rules with new arrays. -/
structure Leaves (p p' : Plan) : Prop where
  extends_ : p.Extends p'
  pending : ∃ later, p'.pending = p.pending ++ later ∧
    ∀ e ∈ later, ∀ array ∈ arrayNames p.arrays, e.2.targets array = false
  backing : ∃ later, p'.backing.entries = p.backing.entries ++ later ∧
    ∀ e ∈ later, e.1 ∉ ruleNames p.rules.rules ∧ e.2.array ∉ arrayNames p.arrays

theorem Leaves.refl (p : Plan) : p.Leaves p :=
  ⟨.refl p, ⟨[], by simp⟩, ⟨[], by simp⟩⟩

theorem Leaves.trans {p p' p'' : Plan} (h : p.Leaves p') (h' : p'.Leaves p'') : p.Leaves p'' := by
  obtain ⟨later, hlater⟩ := h.extends_.rules
  obtain ⟨arrays, harrays⟩ := h.extends_.arrays
  have hnames : ∀ array ∈ arrayNames p.arrays, array ∈ arrayNames p'.arrays := by
    intro array hmem
    rw [harrays, arrayNames, List.map_append]
    exact List.mem_append_left _ hmem
  have hrules : ∀ rule ∈ ruleNames p.rules.rules, rule ∈ ruleNames p'.rules.rules := by
    intro rule hmem
    rw [hlater, ruleNames, List.map_append]
    exact List.mem_append_left _ hmem
  refine ⟨h.extends_.trans h'.extends_, ?_, ?_⟩
  · obtain ⟨new, hnew, hleft⟩ := h.pending
    obtain ⟨new', hnew', hleft'⟩ := h'.pending
    refine ⟨new ++ new', by rw [hnew', hnew, List.append_assoc], fun e he array harray => ?_⟩
    rcases List.mem_append.1 he with he | he
    · exact hleft e he array harray
    · exact hleft' e he array (hnames array harray)
  · obtain ⟨new, hnew, hleft⟩ := h.backing
    obtain ⟨new', hnew', hleft'⟩ := h'.backing
    refine ⟨new ++ new', by rw [hnew', hnew, List.append_assoc], fun e he => ?_⟩
    rcases List.mem_append.1 he with he | he
    · exact hleft e he
    · obtain ⟨hrule, harray⟩ := hleft' e he
      exact ⟨fun hmem => hrule (hrules e.1 hmem), fun hmem => harray (hnames e.2.array hmem)⟩

theorem leaves_grow {p : Plan} {g : Growth} {issued : List String} (hp : p.WellFormed) (hg : g.Fits p issued)
    (hstatements : ∀ s ∈ g.statements, ∃ array index, s.target = .load array index ∧ array ∈ issued)
    (hbacked : ∀ b ∈ g.backed, b.1 ∈ issued ∧ b.2 ∈ issued) : p.Leaves (p.grow g) := by
  refine ⟨extends_grow hg, ⟨_, rfl, fun e he array harray => ?_⟩, ⟨_, rfl, fun e he => ?_⟩⟩
  · obtain ⟨s, hs, rfl⟩ := List.mem_map.1 he
    obtain ⟨other, index, htarget, hother⟩ := hstatements s hs
    have hne : other ≠ array := fun heq =>
      hg.draws.unused other hother (heq ▸ hp.arrays_taken array harray)
    simp [Statement.targets, htarget, hne]
  · obtain ⟨b, hb, rfl⟩ := List.mem_map.1 he
    obtain ⟨hrule, harray⟩ := hbacked b hb
    exact ⟨fun hmem => hg.draws.unused b.1 hrule (hp.rules_taken b.1 hmem),
      fun hmem => hg.draws.unused b.2 harray (hp.arrays_taken b.2 hmem)⟩

end Plan

variable {α : Type} [Scalar α]

/-- An account, or one that says what the body of a rule computes that has an array which is not seen yet. -/
inductive Plan.Refines (p : Plan) (account : Account α) (i : Nat) : Account α → Prop where
  | self : Refines p account i account
  | rule {j : Nat} {r : Rule} {f : List Int → α} (hr : p.rules.rules[j]? = some r) (hj : j < i)
      (hunseen : ∃ e ∈ p.backing.entries, e.1 = r.name ∧ i < e.2.visibleFrom)
      (hcomputes : r.Computes account p.domains (p.rules.rules.take j) ⟨(account r.name).lengths, some f⟩) :
      Refines p account i (account.set r.name ⟨(account r.name).lengths, some f⟩)

def Plan.Keeps (p : Plan) (account : Account α) (array : String) (e : Nat × Statement) (us : List (List Int × α)) :
    Prop :=
  ∃ κ, p.Refines account e.1 κ ∧ e.2.Stores κ p.domains (p.rules.rules.take e.1) array (knownUpdates us)

/-- The array has been written: it holds the tensor from the start or is filled with it first, and then the updates
are stored one after the other. -/
structure Plan.Written (p : Plan) (account : Account α) (data : String → Array α) (array : String) (t : Tensor α)
    (us : List (List (List Int × α))) : Prop where
  secret : ∀ e ∈ p.backing.entries, e.2.array = array → (account e.1).value = none
  history : ∃ first, List.Forall₂ (p.Keeps account array) (p.pending.filter fun e => e.2.targets array) (first ++ us) ∧
    (first = [boxUpdates t.lengths t.element] ∨ first = [] ∧ ∃ d ∈ p.arrays, d.name = array ∧ d.role = .input ∧
      ∀ index, InBox index t.lengths → t.element index = inputElement data d t.lengths index)

/-- What has become of the value of a handle by writes. -/
inductive Plan.Subject (p : Plan) (account : Account α) (data : String → Array α) (a : Handle) (t : Tensor α) :
    List (List (List Int × α)) → Prop where
  | unwritten {i : Nat} {r : Rule} (hbacked : p.backing.array? a.rule = none)
      (hsecret : (account a.rule).value = none) (hr : p.rules.rules[i]? = some r) (hname : r.name = a.rule)
      (hcomputes : r.Computes account p.domains (p.rules.rules.take i) ⟨t.lengths, some t.element⟩) :
      Subject p account data a t []
  | written {us : List (List (List Int × α))} (array : String) (hbacked : p.backing.array? a.rule = some array)
      (hwritten : p.Written account data array t us) : Subject p account data a t us

section Keeping

variable {p p' : Plan} {account account' κ : Account α} {data : String → Array α} {array : String}

omit [Scalar α] in
theorem AgreesOn.set {rules : List Rule} (h : account.AgreesOn account' rules) (name : String) (c : Cell α) :
    (account.set name c).AgreesOn (account'.set name c) rules := by
  intro r hr
  rw [Account.set, Account.set]
  by_cases hname : r.name = name
  · rw [if_pos hname, if_pos hname]
  · rw [if_neg hname, if_neg hname, h r hr]

theorem Plan.Extends.take_rules (h : p.Extends p') {i : Nat} (hi : i ≤ p.rules.size) :
    p'.rules.rules.take i = p.rules.rules.take i := by
  obtain ⟨later, hlater⟩ := h.rules
  rw [hlater, List.take_append_of_le_length hi]

theorem Plan.Extends.rule_at (h : p.Extends p') {i : Nat} {r : Rule} (hr : p.rules.rules[i]? = some r) :
    p'.rules.rules[i]? = some r := by
  obtain ⟨later, hlater⟩ := h.rules
  rw [hlater, List.getElem?_append_left (List.getElem?_eq_some_iff.1 hr).1]
  exact hr

theorem Plan.Extends.computes (h : p.Extends p') (hagrees : account.AgreesOn account' p.rules.rules) {i : Nat}
    {r : Rule} {c : Cell α} (hr : p.rules.rules[i]? = some r)
    (hcomputes : r.Computes account p.domains (p.rules.rules.take i) c) :
    r.Computes account' p'.domains (p'.rules.rules.take i) c := by
  obtain ⟨later, hlater⟩ := h.domains
  rw [h.take_rules (Nat.le_of_lt (List.getElem?_eq_some_iff.1 hr).1), hlater]
  exact hcomputes.mono (AgreesOn.take hagrees i)

omit [Scalar α] in
theorem Plan.Accounts.extend {a : Handle} {t : Tensor α} (ha : p.Accounts account a t) (h : p.Extends p')
    (hagrees : account.AgreesOn account' p.rules.rules) : p'.Accounts account' a t :=
  ⟨h.live ha.live, ha.describes, by rw [ha.live.cell_eq hagrees, ha.lengths]⟩

theorem Plan.Refines.extend {i : Nat} (hκ : p.Refines account i κ) (h : p.Extends p')
    (hagrees : account.AgreesOn account' p.rules.rules) :
    ∃ κ', p'.Refines account' i κ' ∧ κ.AgreesOn κ' (p.rules.rules.take i) := by
  cases hκ with
  | self => exact ⟨account', .self, AgreesOn.take hagrees i⟩
  | @rule j r f hr hj hunseen hcomputes =>
    have hsame : account' r.name = account r.name := hagrees r (List.mem_of_getElem? hr)
    refine ⟨account'.set r.name ⟨(account' r.name).lengths, some f⟩, .rule (h.rule_at hr) hj ?_ ?_, ?_⟩
    · obtain ⟨e, he, hvisible⟩ := hunseen
      obtain ⟨later, hlater, _⟩ := h.backed
      exact ⟨e, hlater ▸ List.mem_append_left later he, hvisible⟩
    · rw [hsame]
      exact h.computes hagrees hr hcomputes
    · rw [hsame]
      exact AgreesOn.set (AgreesOn.take hagrees i) _ _

theorem Plan.Keeps.extend {e : Nat × Statement} {us : List (List Int × α)} (hkeeps : p.Keeps account array e us)
    (hp : p.WellFormed) (he : e ∈ p.pending) (h : p.Extends p') (hagrees : account.AgreesOn account' p.rules.rules) :
    p'.Keeps account' array e us := by
  obtain ⟨κ, hκ, hstores⟩ := hkeeps
  obtain ⟨hkey, hscoped⟩ := hp.pending e he
  obtain ⟨κ', hκ', hsame⟩ := hκ.extend h hagrees
  obtain ⟨later, hlater⟩ := h.domains
  refine ⟨κ', hκ', ?_⟩
  rw [h.take_rules hkey, hlater]
  exact hstores.mono hscoped.vars hsame

theorem Plan.Written.extend {t : Tensor α} {us new : List (List (List Int × α))} {later : List (Nat × Statement)}
    (hw : p.Written account data array t us) (hp : p.WellFormed) (h : p.Extends p')
    (hagrees : account.AgreesOn account' p.rules.rules) (hpending : p'.pending = p.pending ++ later)
    (hlater : List.Forall₂ (p'.Keeps account' array) (later.filter fun e => e.2.targets array) new)
    (hbacking : ∀ e ∈ p'.backing.entries, e ∈ p.backing.entries ∨ e.2.array ≠ array) :
    p'.Written account' data array t (us ++ new) := by
  obtain ⟨first, hhistory, hfirst⟩ := hw.history
  refine ⟨fun e he harray => ?_, first, ?_, ?_⟩
  · have hold := (hbacking e he).resolve_right fun hne => hne harray
    rw [hp.agrees_of_mem hagrees hold]
    exact hw.secret e hold harray
  · rw [hpending, List.filter_append, ← List.append_assoc]
    refine List.rel_append ?_ hlater
    rw [List.forall₂_iff_get] at hhistory ⊢
    refine ⟨hhistory.1, fun i hi hi' => ?_⟩
    have hmem := List.get_mem _ ⟨i, hi⟩
    exact (hhistory.2 i hi hi').extend hp (List.mem_of_mem_filter hmem) h hagrees
  · obtain ⟨arrays, harrays⟩ := h.arrays
    rcases hfirst with hfirst | ⟨hfirst, d, hd, hrest⟩
    · exact .inl hfirst
    · exact .inr ⟨hfirst, d, harrays ▸ List.mem_append_left _ hd, hrest⟩

theorem Plan.array?_of_backed {g : Growth} {issued : List String} (hp : p.WellFormed) (hg : g.Fits p issued)
    {b : String × String} (hb : b ∈ g.backed) : (p.grow g).backing.array? b.1 = some b.2 := by
  have hmem : (b.1, (⟨b.2, (p.rules.rules ++ g.rule.toList).length⟩ : BackingEntry)) ∈ (p.grow g).backing.entries :=
    List.mem_append_right p.backing.entries (List.mem_map.2 ⟨b, hb, rfl⟩)
  rw [BackingTable.array?, BackingTable.find?_of_mem (hp.grow hg).backed_nodup hmem]
  rfl

theorem Plan.array?_append {rule : String} {later : List (String × BackingEntry)}
    (hbacking : p'.backing.entries = p.backing.entries ++ later) (hnone : p.backing.array? rule = none)
    (hlater : ∀ e ∈ later, e.1 ≠ rule) : p'.backing.array? rule = none := by
  have hold := BackingTable.not_mem_of_array?_eq_none hnone
  have hfind : p'.backing.find? rule = none := by
    rw [BackingTable.find?_eq_none_iff, hbacking, List.map_append]
    intro hmem
    rcases List.mem_append.1 hmem with hmem | hmem
    · exact hold hmem
    · obtain ⟨e, he, hname⟩ := List.mem_map.1 hmem
      exact hlater e he hname
  rw [BackingTable.array?, hfind]
  rfl

theorem Plan.Subject.secret {a : Handle} {t : Tensor α} {us : List (List (List Int × α))}
    (hs : p.Subject account data a t us) : (account a.rule).value = none := by
  cases hs with
  | unwritten hbacked hsecret => exact hsecret
  | written array hbacked hwritten =>
    obtain ⟨entry, hentry, harray⟩ := Option.map_eq_some_iff.1 hbacked
    exact hwritten.secret _ (BackingTable.mem_of_find? hentry) harray

theorem Plan.Subject.secrets {a : Handle} {t : Tensor α} {us : List (List (List Int × α))}
    (hs : p.Subject account data a t us) : ∀ e ∈ p.backing.entries, p.backing.array? a.rule = some e.2.array →
      (account e.1).value = none := by
  intro e he harray
  cases hs with
  | unwritten hbacked => cases hbacked.symm.trans harray
  | written array hbacked hwritten => exact hwritten.secret e he (Option.some.inj (harray.symm.trans hbacked))

theorem Plan.Subject.leave {a : Handle} {t : Tensor α} {us : List (List (List Int × α))}
    (hs : p.Subject account data a t us) (hp : p.WellFormed) (h : p.Leaves p')
    (hagrees : account.AgreesOn account' p.rules.rules) : p'.Subject account' data a t us := by
  obtain ⟨new, hnew, hfresh⟩ := h.backing
  cases hs with
  | unwritten hbacked hsecret hr hname hcomputes =>
    have hmem := List.mem_of_getElem? hr
    have hunbacked : p'.backing.array? a.rule = none :=
      array?_append hnew hbacked fun e he hsame => (hfresh e he).1 (hsame ▸ hname ▸ List.mem_map_of_mem hmem)
    have hsame : account' a.rule = account a.rule := hname ▸ hagrees _ hmem
    exact .unwritten hunbacked (by rw [hsame, hsecret]) (h.extends_.rule_at hr) hname
      (h.extends_.computes hagrees hr hcomputes)
  | written array hbacked hwritten =>
    obtain ⟨entry, hentry, rfl⟩ := Option.map_eq_some_iff.1 hbacked
    have hdeclared := (hp.backed _ (BackingTable.mem_of_find? hentry)).2.1
    obtain ⟨later, hlater, hleft⟩ := h.pending
    have hnone : (later.filter fun e => e.2.targets entry.array) = [] := by
      rw [List.filter_eq_nil_iff]
      intro e he
      rw [hleft e he _ hdeclared]
      decide
    refine .written entry.array (h.extends_.array? hbacked) ?_
    have hwritten' := hwritten.extend hp h.extends_ hagrees hlater (by rw [hnone]; exact .nil) fun e he => ?_
    · rwa [List.append_nil] at hwritten'
    · rw [hnew] at he
      rcases List.mem_append.1 he with he | he
      · exact .inl he
      · exact .inr fun hsame => (hfresh e he).2 (hsame ▸ hdeclared)

end Keeping

end ArrayPlan
