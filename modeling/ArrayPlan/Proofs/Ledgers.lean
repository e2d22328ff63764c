import ArrayPlan.Proofs.Stores
import ArrayPlan.Proofs.Sums

/-!
Accounts of plans. The statements of an accounted plan store where there are elements, and what they store is
known as far as the account goes. Where a backed rule is accounted for, its array is an input, or is filled
with the values of the rule before the array is seen.
-/

namespace ArrayPlan

variable {α : Type}

/-- The statement stores at these positions of the array, one after the other, and these values where they are
given. -/
def Statement.Stores [Scalar α] (s : Statement) (account : Account α) (domains : List Domain) (rules : List Rule)
    (array : String) (updates : List (List Int × Option α)) : Prop :=
  ∃ index points, s.target = .load array index ∧ pointsOver domains s.within .empty = .ok points ∧
    List.Forall₂ (fun point u => ∀ I : Interpretation α, I.Answers account domains rules →
      I.position? index point = some u.1 ∧ ∃ v, I.value? s.value point = some v ∧ ∀ x, u.2 = some x → v = x)
      points updates

def Statement.targets (s : Statement) (array : String) : Bool :=
  match s.target with
  | .load a _ => a == array
  | _ => false

def boxUpdates {β : Type} (lengths : List Nat) (f : List Int → β) : List (List Int × β) :=
  (boxPoints lengths).map fun index => (index, f index)

def Cell.value? (c : Cell α) (index : List Int) : Option α :=
  c.value.map fun f => f index

def Account.set (account : Account α) (name : String) (c : Cell α) : Account α :=
  fun rule => if rule = name then c else account rule

def Account.Open (account : Account α) : Prop :=
  ∀ rule, (account rule).value = none

def Account.AgreesOn (account account' : Account α) (rules : List Rule) : Prop :=
  ∀ r ∈ rules, account' r.name = account r.name

theorem Interpretation.Answers.congr {I : Interpretation α} {account account' : Account α} {domains : List Domain}
    {rules : List Rule} (h : I.Answers account' domains rules) (hagrees : account.AgreesOn account' rules) :
    I.Answers account domains rules where
  call r hr index htakes := by
    rw [← hagrees r hr] at htakes ⊢
    exact h.call r hr index htakes
  points := h.points

section Mono

variable [Scalar α] {account account' : Account α} {domains later : List Domain} {rules : List Rule}

theorem Rule.Computes.mono {r : Rule} {c : Cell α} (h : r.Computes account domains rules c)
    (hagrees : account.AgreesOn account' rules) : r.Computes account' (domains ++ later) rules c :=
  fun I hI => h I ((hI.mono fun _ hr => hr).congr hagrees)

theorem Statement.Stores.mono {s : Statement} {array : String} {updates : List (List Int × Option α)}
    (h : s.Stores account domains rules array updates) (howned : ∀ v ∈ s.within, Owned domains v)
    (hagrees : account.AgreesOn account' rules) : s.Stores account' (domains ++ later) rules array updates := by
  obtain ⟨index, points, htarget, hpoints, hstores⟩ := h
  refine ⟨index, points, htarget, (pointsOver_append howned .empty).trans hpoints, hstores.imp fun point u hu => ?_⟩
  exact fun I hI => hu I ((hI.mono fun _ hr => hr).congr hagrees)

theorem Statement.Stores.congr {s : Statement} {array : String} {updates : List (List Int × Option α)}
    (h : s.Stores account domains rules array updates) (hagrees : account.AgreesOn account' rules) :
    s.Stores account' domains rules array updates := by
  obtain ⟨index, points, htarget, hpoints, hstores⟩ := h
  exact ⟨index, points, htarget, hpoints, hstores.imp fun point u hu I hI => hu I (hI.congr hagrees)⟩

theorem Statement.Stores.targets {s : Statement} {array : String} {updates : List (List Int × Option α)}
    (h : s.Stores account domains rules array updates) : s.targets array = true := by
  obtain ⟨index, _, htarget, _, _⟩ := h
  simp [Statement.targets, htarget]

theorem Statement.targets_iff {s : Statement} {array : String} :
    s.targets array = true ↔ ∃ index, s.target = .load array index := by
  rw [Statement.targets]
  split
  · rename_i a index heq
    simp [heq]
  · rename_i hnot
    simp only [Bool.false_eq_true, false_iff, not_exists]
    exact fun index heq => hnot array index heq

theorem Statement.targets_inj {s : Statement} {array array' : String} (h : s.targets array = true)
    (h' : s.targets array' = true) : array = array' := by
  obtain ⟨index, htarget⟩ := Statement.targets_iff.1 h
  obtain ⟨index', htarget'⟩ := Statement.targets_iff.1 h'
  exact (Expr.load.inj (htarget.symm.trans htarget')).1

end Mono

def inputElement [Scalar α] (data : String → Array α) (d : Declaration) (lengths : List Nat) (index : List Int) : α :=
  (data d.name).getD (Layout.rowMajor.place lengths index) Scalar.zero

namespace Plan

/-- The array holds the values from the start, or all statements that store into it fill it with them, and this
is before it is seen. -/
def Filled [Scalar α] (p : Plan) (account : Account α) (data : String → Array α) (array : String) (visibleFrom : Nat)
    (lengths : List Nat) (f : List Int → α) : Prop :=
  (∀ e ∈ p.pending, e.2.targets array = true → e.1 < visibleFrom ∧
    e.2.Stores account p.domains (p.rules.rules.take e.1) array (boxUpdates lengths fun index => some (f index))) ∧
  ((∀ e ∈ p.pending, e.2.targets array = false) → ∃ d ∈ p.arrays, d.name = array ∧ d.role = .input ∧
    ∀ index, InBox index lengths → f index = inputElement data d lengths index)

structure Accounted [Scalar α] (p : Plan) (account : Account α) (data : String → Array α) : Prop where
  arrays : ∀ d ∈ p.arrays, ∃ lengths, d.shape.lengths? = some lengths
  rules : ∀ (i : Nat) (r : Rule), p.rules.rules[i]? = some r →
    (∃ e ∈ p.backing.entries, e.1 = r.name ∧ e.2.visibleFrom = i + 1) ∨
      r.Computes account p.domains (p.rules.rules.take i) (account r.name)
  backed : ∀ e ∈ p.backing.entries, ∀ d ∈ p.arrays, d.name = e.2.array →
    d.shape.lengths? = some (account e.1).lengths
  pending : ∀ e ∈ p.pending, ∃ d ∈ p.arrays, ∃ lengths updates, d.shape.lengths? = some lengths ∧
    e.2.Stores account p.domains (p.rules.rules.take e.1) d.name updates ∧ ∀ u ∈ updates, InBox u.1 lengths
  filled : ∀ e ∈ p.backing.entries, ∀ f, (account e.1).value = some f →
    p.Filled account data e.2.array e.2.visibleFrom (account e.1).lengths f

end Plan

/-- What is new in a plan is accounted for. -/
structure Growth.Accounted [Scalar α] (g : Growth) (p : Plan) (account : Account α) (data : String → Array α) : Prop where
  arrays : ∀ d ∈ g.arrays, ∃ lengths, d.shape.lengths? = some lengths
  rule : ∀ r, g.rule = some r → r.name ∈ g.backed.map Prod.fst ∨
    r.Computes account (p.domains ++ g.domains) p.rules.rules (account r.name)
  backed : ∀ b ∈ g.backed, ∀ d ∈ p.arrays ++ g.arrays, d.name = b.2 →
    d.shape.lengths? = some (account b.1).lengths
  statements : ∀ s ∈ g.statements, ∃ d ∈ p.arrays ++ g.arrays, ∃ lengths updates,
    d.shape.lengths? = some lengths ∧ s.Stores account (p.domains ++ g.domains) p.rules.rules d.name updates ∧
      ∀ u ∈ updates, InBox u.1 lengths
  filled : ∀ b ∈ g.backed, ∀ f, (account b.1).value = some f →
    (p.grow g).Filled account data b.2 (p.rules.rules ++ g.rule.toList).length (account b.1).lengths f
  spares : ∀ s ∈ g.statements, ∀ e ∈ p.backing.entries, s.targets e.2.array = true → (account e.1).value = none

section Grow

variable {p : Plan} {g : Growth} {issued : List String} {account account' : Account α} {data : String → Array α}

theorem AgreesOn.take (h : account.AgreesOn account' p.rules.rules) (i : Nat) :
    account.AgreesOn account' (p.rules.rules.take i) :=
  fun r hr => h r (List.mem_of_mem_take hr)

theorem Plan.WellFormed.agrees_of_mem (hp : p.WellFormed) (h : account.AgreesOn account' p.rules.rules)
    {e : String × BackingEntry} (he : e ∈ p.backing.entries) : account' e.1 = account e.1 := by
  obtain ⟨r, hr, heq⟩ := List.mem_map.1 (hp.backed e he).2.2
  rw [← heq]
  exact h r (List.mem_of_mem_take hr)

theorem Plan.Live.cell_eq {a : Handle} (ha : p.Live a) (h : account.AgreesOn account' p.rules.rules) :
    account' a.rule = account a.rule := by
  obtain ⟨r, hr, _⟩ := ha.rule
  have hname : r.name = a.rule := by simpa using List.find?_some hr
  rw [← hname]
  exact h r (List.mem_of_find?_eq_some hr)

theorem Plan.Accounted.grow [Scalar α] (hp : p.WellFormed) (h : p.Accounted account data) (hg : g.Fits p issued)
    (hagrees : account.AgreesOn account' p.rules.rules) (hnew : g.Accounted p account' data) :
    (p.grow g).Accounted account' data := by
  have hstores : ∀ e ∈ p.pending, ∀ array updates,
      e.2.Stores account p.domains (p.rules.rules.take e.1) array updates →
        e.2.Stores account' (p.grow g).domains ((p.grow g).rules.rules.take e.1) array updates := by
    intro e he array updates hold
    obtain ⟨hkey, hscoped⟩ := hp.pending e he
    rw [take_grow hkey]
    exact hold.mono hscoped.vars (AgreesOn.take hagrees e.1)
  have hsame : ∀ e ∈ p.backing.entries, account' e.1 = account e.1 := fun e he => hp.agrees_of_mem hagrees he
  constructor
  case arrays =>
    intro d hd
    rcases List.mem_append.1 hd with hd | hd
    · exact h.arrays d hd
    · exact hnew.arrays d hd
  case rules =>
    intro i r hr
    rcases rule_of_grow hr with ⟨hi, hold⟩ | ⟨rfl, hrule⟩
    · rw [take_grow (Nat.le_of_lt hi)]
      rcases h.rules i r hold with ⟨e, he, hname, hvisible⟩ | hcomputes
      · exact .inl ⟨e, List.mem_append_left _ he, hname, hvisible⟩
      · rw [hagrees r (List.mem_of_getElem? hold)]
        exact .inr (hcomputes.mono (AgreesOn.take hagrees i))
    · rcases hnew.rule r hrule with hmem | hcomputes
      · obtain ⟨b, hb, hname⟩ := List.mem_map.1 hmem
        refine .inl ⟨(b.1, ⟨b.2, _⟩), List.mem_append_right _ (List.mem_map_of_mem hb), hname, ?_⟩
        simp [hrule, RuleLog.size]
      · rw [take_size_grow]
        exact .inr hcomputes
  case backed =>
    intro e he d hd hname
    rcases List.mem_append.1 he with he | he
    · rw [hsame e he]
      rcases List.mem_append.1 hd with hd | hd
      · exact h.backed e he d hd hname
      · have hissued := hg.arrays d.name (List.mem_map_of_mem hd)
        exact absurd (hp.arrays_taken _ (hp.backed e he).2.1) (hname ▸ hg.draws.unused d.name hissued)
    · obtain ⟨b, hb, rfl⟩ := List.mem_map.1 he
      exact hnew.backed b hb d hd hname
  case pending =>
    intro e he
    rcases List.mem_append.1 he with he | he
    · obtain ⟨d, hd, lengths, updates, hlengths, hold, hbox⟩ := h.pending e he
      exact ⟨d, List.mem_append_left _ hd, lengths, updates, hlengths, hstores e he _ _ hold, hbox⟩
    · obtain ⟨s, hs, rfl⟩ := List.mem_map.1 he
      obtain ⟨d, hd, lengths, updates, hlengths, hstore, hbox⟩ := hnew.statements s hs
      rw [take_size_grow]
      exact ⟨d, hd, lengths, updates, hlengths, hstore, hbox⟩
  case filled =>
    intro e he f hf
    rcases List.mem_append.1 he with he | he
    · rw [hsame e he] at hf ⊢
      obtain ⟨hfills, hinput⟩ := h.filled e he f hf
      constructor
      · intro e' he' htargets
        rcases List.mem_append.1 he' with he' | he'
        · obtain ⟨hkey, hfill⟩ := hfills e' he' htargets
          exact ⟨hkey, hstores e' he' _ _ hfill⟩
        · obtain ⟨s, hs, rfl⟩ := List.mem_map.1 he'
          have hnone := hnew.spares s hs e he htargets
          rw [hsame e he, hf] at hnone
          cases hnone
      · intro hnone
        obtain ⟨d, hd, hrest⟩ := hinput fun e' he' => hnone e' (List.mem_append_left _ he')
        exact ⟨d, List.mem_append_left _ hd, hrest⟩
    · obtain ⟨b, hb, rfl⟩ := List.mem_map.1 he
      exact hnew.filled b hb f hf

theorem agreesOn_set (hp : p.WellFormed) {names : NameSupply} (hdraws : p.names.Draws names issued) {rule : String}
    (hrule : rule ∈ issued) (c : Cell α) : account.AgreesOn (account.set rule c) p.rules.rules := by
  intro r hr
  have hne : r.name ≠ rule := fun heq =>
    hdraws.unused rule hrule (heq ▸ hp.rules_taken r.name (List.mem_map_of_mem hr))
  rw [Account.set, if_neg hne]

theorem Account.set_self (account : Account α) (rule : String) (c : Cell α) : account.set rule c rule = c :=
  if_pos rfl

theorem Account.Open.set {c : Cell α} (h : account.Open) (hc : c.value = none) (rule : String) :
    (account.set rule c).Open := by
  intro other
  rw [Account.set]
  split
  · exact hc
  · exact h other

theorem Plan.Accounted.define [Scalar α] {p' : Plan} {d : Definition} {a : Handle} {c : Cell α} (hp : p.WellFormed)
    (h : p.Accounted account data) (hd : p.Defines d a p')
    (hcomputes : (Rule.mk a.rule d.params d.body).Computes account p'.domains p.rules.rules c) :
    p'.Accounted (account.set a.rule c) data := by
  have hfits := hd.growth_fits
  have hagrees : account.AgreesOn (account.set a.rule c) p.rules.rules :=
    agreesOn_set hp hfits.draws (by simp) c
  have hgrown := hd.grown
  generalize p'.names = names at hfits hgrown
  subst hgrown
  refine h.grow hp hfits hagrees ?_
  refine ⟨by simp [Definition.growth], fun r hr => .inr ?_, by simp [Definition.growth], by simp [Definition.growth],
    by simp [Definition.growth], by simp [Definition.growth]⟩
  obtain rfl : (⟨a.rule, d.params, d.body⟩ : Rule) = r := Option.some.inj hr
  rw [Account.set_self]
  exact fun I hI => hcomputes I (hI.congr hagrees)

theorem not_targets_of_fresh (hp : p.WellFormed) {array : String} (hfresh : array ∉ p.names.taken) :
    ∀ e ∈ p.pending, e.2.targets array = false := by
  intro e he
  obtain ⟨other, index, htarget, hother, _⟩ := (hp.pending e he).2.target
  have hne : other ≠ array := fun heq => hfresh (heq ▸ hp.arrays_taken other hother)
  simp [Statement.targets, htarget, hne]

theorem filter_targets_of_fresh {array : String} (hp : p.WellFormed) (hfresh : array ∉ p.names.taken) :
    p.pending.filter (fun e => e.2.targets array) = [] := by
  rw [List.filter_eq_nil_iff]
  intro e he
  rw [not_targets_of_fresh hp hfresh e he]
  decide

theorem ne_of_backed (hp : p.WellFormed) {array : String} (hfresh : array ∉ p.names.taken) :
    ∀ e ∈ p.backing.entries, e.2.array ≠ array :=
  fun e he heq => hfresh (heq ▸ hp.arrays_taken _ (hp.backed e he).2.1)

theorem ne_of_declared (hp : p.WellFormed) {array : String} (hfresh : array ∉ p.names.taken) :
    ∀ d ∈ p.arrays, d.name ≠ array :=
  fun d hd heq => hfresh (heq ▸ hp.arrays_taken d.name (List.mem_map_of_mem hd))

end Grow

section Stores

variable [Scalar α] {account : Account α} {domains : List Domain} {rules : List Rule} {c : Cell α}

omit [Scalar α] in
theorem Cell.Holds.value?_eq {index : List Int} {found : Option α} (h : c.Holds index found) :
    ∃ v, found = some v ∧ ∀ x, c.value? index = some x → v = x := by
  obtain ⟨v, hv, hknown⟩ := h
  refine ⟨v, hv, fun x hx => ?_⟩
  obtain ⟨f, hf, rfl⟩ := Option.map_eq_some_iff.1 hx
  exact hknown f hf

omit [Scalar α] in
theorem boxUpdates_of_value {lengths : List Nat} {f : List Int → α} (hf : c.value = some f) :
    boxUpdates lengths c.value? = boxUpdates lengths fun index => some (f index) := by
  refine List.map_congr_left fun index _ => ?_
  rw [Cell.value?, hf]
  rfl

theorem stores_box [ExactIndices α] {array : String} {e : Expr} {vars : List String} {lengths : List Nat}
    (hnodup : vars.Nodup) (hlen : vars.length = lengths.length) (hboxed : Boxed domains .empty vars lengths)
    (hbound : (elementCount lengths : Int) ≤ indexBound)
    (hvalue : ∀ I : Interpretation α, I.Answers account domains rules → ∀ index, InBox index lengths →
      c.Holds index (I.value? e (Env.empty.at vars index))) :
    (Statement.mk (.load array (vars.map .var)) e vars).Stores account domains rules array
      (boxUpdates lengths c.value?) := by
  refine ⟨vars.map .var, (boxPoints lengths).map (Env.empty.at vars), rfl, pointsOver_of_boxed hboxed, ?_⟩
  rw [boxUpdates, List.forall₂_map_left_iff, List.forall₂_map_right_iff, List.forall₂_same]
  intro index hindex I hI
  have hbox := mem_boxPoints.1 hindex
  have hbinds := Env.empty.binds_at hnodup (hlen.trans hbox.length_eq.symm)
  exact ⟨Interpretation.position?_vars hbinds (hbox.bounded hbound), (hvalue I hI index hbox).value?_eq⟩

theorem inBox_of_mem_boxUpdates {β : Type} {lengths : List Nat} {f : List Int → β} {u : List Int × β}
    (hu : u ∈ boxUpdates lengths f) : InBox u.1 lengths := by
  obtain ⟨index, hindex, rfl⟩ := List.mem_map.1 hu
  exact mem_boxPoints.1 hindex

end Stores

section Steps

variable [Scalar α] {p p' : Plan} {a h : Handle} {account : Account α} {data : String → Array α} {c : Cell α}

theorem Plan.Accounted.input {array : String} {shape : Shape} {elementType : ElementType} {vars : List String}
    {lengths : List Nat} (hp : p.WellFormed) (hacc : p.Accounted account data)
    (hi : p.Inputs array shape elementType vars h p') (hshape : shape.lengths? = some lengths)
    (hlengths : c.lengths = lengths)
    (hvalue : ∀ f, c.value = some f → ∀ index, InBox index lengths →
      f index = (Tensor.ofData lengths elementType (data array)).element index) :
    p'.Accounted (account.set h.rule c) data := by
  obtain ⟨_, hfits, hgrown, _⟩ := hi
  have hfresh : array ∉ p.names.taken := hfits.draws.unused array (by simp)
  have hagrees : account.AgreesOn (account.set h.rule c) p.rules.rules := agreesOn_set hp hfits.draws (by simp) c
  generalize p'.names = names at hfits hgrown
  subst hgrown
  refine hacc.grow hp hfits hagrees ?_
  constructor
  case arrays =>
    intro d hd
    obtain rfl : d = ⟨array, shape, elementType, .input⟩ := by simpa [inputGrowth] using hd
    exact ⟨lengths, hshape⟩
  case rule =>
    intro r hr
    obtain rfl : (⟨h.rule, vars, .load array (vars.map .var)⟩ : Rule) = r := Option.some.inj hr
    exact .inl (by simp [inputGrowth])
  case backed =>
    intro b hb d hd hname
    obtain rfl : b = (h.rule, array) := by simpa [inputGrowth] using hb
    rw [Account.set_self, hlengths]
    rcases List.mem_append.1 hd with hd | hd
    · exact absurd hname (ne_of_declared hp hfresh d hd)
    · obtain rfl : d = ⟨array, shape, elementType, .input⟩ := by simpa [inputGrowth] using hd
      exact hshape
  case statements =>
    simp [inputGrowth]
  case filled =>
    intro b hb f hf
    obtain rfl : b = (h.rule, array) := by simpa [inputGrowth] using hb
    rw [Account.set_self] at hf ⊢
    have hnone : ∀ e ∈ (p.grow (inputGrowth names array shape elementType vars h.rule)).pending,
        e.2.targets array = false := by
      simpa [Plan.grow, inputGrowth] using not_targets_of_fresh hp hfresh
    refine ⟨fun e he htargets => ?_, fun _ => ?_⟩
    · rw [hnone e he] at htargets
      cases htargets
    · refine ⟨⟨array, shape, elementType, .input⟩, by simp [Plan.grow, inputGrowth], rfl, rfl, fun index hindex => ?_⟩
      rw [hlengths] at hindex ⊢
      exact hvalue f hf index hindex
  case spares =>
    simp [inputGrowth]

theorem stores_prefixSums [ExactIndices α] {n : Nat} {array i j t : String} {ta : Tensor α} (hp : p.WellFormed)
    (hs : p.Accumulates a (.fixed n) array i j t h p') (ha : p.Accounts account a ta) (hta : ta.lengths = [n])
    (hbound : (n : Int) ≤ indexBound) (hmeans : c.Means ta.prefixSums (account.Knows a ta)) :
    (Statement.mk (.load array [.var i]) (.sum [j] (p.callOf a.rule [.var j])) [i]).Stores account
      (p.domains ++ [prefixSumDomain i j (.fixed n)]) p.rules.rules array (boxUpdates [n] c.value?) := by
  have hdomains : ((p.domains ++ [prefixSumDomain i j (.fixed n)]).flatMap Domain.vars).Nodup := by
    have hvars := (hp.grow hs.fits).vars_nodup
    exact hvars
  have hij : i ≠ j := by
    intro hij
    have hnodup := hs.fits.draws.nodup
    simp [hij] at hnodup
  have hvars : (prefixSumDomain i j (.fixed n)).vars = [i, j] :=
    Build.Outcome.vars_prefixSumDomain i j (.fixed n)
  have hmem : prefixSumDomain i j (.fixed n) ∈ p.domains ++ [prefixSumDomain i j (.fixed n)] := by simp
  have hi := ownerOf_of_mem hdomains hmem (v := i) (by simp [hvars])
  have hj := ownerOf_of_mem hdomains hmem (v := j) (by simp [hvars])
  have hcounts : (Extent.fixed n).Counts .empty [i, j] n := Word.signed_of_le hbound
  have hboxed := (boxed_prefixSum hij hi hj hcounts rfl rfl).1
  have hcount : (elementCount [n] : Int) ≤ indexBound := by
    rw [elementCount, elementCount, Nat.mul_one]
    exact hbound
  refine stores_box (List.nodup_singleton i) rfl hboxed hcount fun I hI index hindex => ?_
  obtain ⟨u, hknown, hvalue⟩ := exists_prefixSums hij hI ha hta hbound hi hj ⟨_, hmem, by simp [hvars]⟩
  refine ⟨_, hvalue index hindex, fun f hf => ?_⟩
  obtain ⟨hk, hf⟩ := hmeans.value f hf
  rw [hknown hk]
  exact (hf index (by rw [show ta.prefixSums.lengths = [n] from hta]; exact hindex)).symm

theorem Plan.Accounted.prefixSums [ExactIndices α] {n : Nat} {array i j t : String} {ta : Tensor α}
    (hp : p.WellFormed) (hacc : p.Accounted account data) (hs : p.Accumulates a (.fixed n) array i j t h p')
    (ha : p.Accounts account a ta) (hta : ta.lengths = [n]) (hbound : (n : Int) ≤ indexBound)
    (hmeans : c.Means ta.prefixSums (account.Knows a ta)) : p'.Accounted (account.set h.rule c) data := by
  have hstores := stores_prefixSums hp hs ha hta hbound hmeans
  have hlengths : c.lengths = [n] := hmeans.lengths.trans hta
  obtain ⟨_, hextents, hfits, hgrown, _⟩ := hs
  have hfresh : array ∉ p.names.taken := hfits.draws.unused array (by simp)
  have hagrees : account.AgreesOn (account.set h.rule c) p.rules.rules := agreesOn_set hp hfits.draws (by simp) c
  have hshape : a.shape.lengths? = some [n] := hta ▸ ha.describes.lengths
  have hstores' : (Statement.mk (.load array [.var i]) (.sum [j] (p.callOf a.rule [.var j])) [i]).Stores
      (account.set h.rule c) (p.domains ++ [prefixSumDomain i j (.fixed n)]) p.rules.rules array
        (boxUpdates [n] c.value?) := hstores.congr hagrees
  generalize p'.names = names at hfits hgrown
  subst hgrown
  refine hacc.grow hp hfits hagrees ?_
  constructor
  case arrays =>
    intro d hd
    obtain rfl : d = ⟨array, a.shape, a.elementType, .temporary⟩ := by simpa [prefixSumGrowth] using hd
    exact ⟨[n], hshape⟩
  case rule =>
    intro r hr
    obtain rfl : (⟨h.rule, [t], .load array [.var t]⟩ : Rule) = r := Option.some.inj hr
    exact .inl (by simp [prefixSumGrowth])
  case backed =>
    intro b hb d hd hname
    obtain rfl : b = (h.rule, array) := by simpa [prefixSumGrowth] using hb
    rw [Account.set_self, hlengths]
    rcases List.mem_append.1 hd with hd | hd
    · exact absurd hname (ne_of_declared hp hfresh d hd)
    · obtain rfl : d = ⟨array, a.shape, a.elementType, .temporary⟩ := by simpa [prefixSumGrowth] using hd
      exact hshape
  case statements =>
    intro s hs
    obtain rfl : s = ⟨.load array [.var i], .sum [j] (p.callOf a.rule [.var j]), [i]⟩ := by
      simpa [prefixSumGrowth] using hs
    exact ⟨⟨array, a.shape, a.elementType, .temporary⟩, by simp [prefixSumGrowth], [n], _, hshape, hstores',
      fun u hu => inBox_of_mem_boxUpdates hu⟩
  case filled =>
    intro b hb f hf
    obtain rfl : b = (h.rule, array) := by simpa [prefixSumGrowth] using hb
    rw [Account.set_self] at hf ⊢
    rw [hlengths]
    rw [boxUpdates_of_value hf] at hstores'
    constructor
    · intro e he htargets
      rcases List.mem_append.1 he with he | he
      · rw [not_targets_of_fresh hp hfresh e he] at htargets
        cases htargets
      · obtain rfl : e = (p.rules.size, ⟨.load array [.var i], .sum [j] (p.callOf a.rule [.var j]), [i]⟩) := by
          simpa [prefixSumGrowth] using he
        refine ⟨by simp [prefixSumGrowth, RuleLog.size], ?_⟩
        rw [take_size_grow]
        exact hstores'
    · intro hnone
      have hfalse := hnone (p.rules.size, ⟨.load array [.var i], .sum [j] (p.callOf a.rule [.var j]), [i]⟩)
        (by simp [Plan.grow, prefixSumGrowth])
      simp [Statement.targets] at hfalse
  case spares =>
    intro s hs e he htargets
    obtain rfl : s = ⟨.load array [.var i], .sum [j] (p.callOf a.rule [.var j]), [i]⟩ := by
      simpa [prefixSumGrowth] using hs
    have hname : array = e.2.array := by simpa [Statement.targets] using htargets
    exact absurd hname.symm (ne_of_backed hp hfresh e he)

end Steps

end ArrayPlan
