import ArrayPlan.Proofs.LinearForms

/-!
Membership in domains. A point is inside when every constraint holds, and there is no answer as soon as one constraint
has a name that is not bound, whatever the others say; so only the set of constraints counts, and neither their order nor
the dropping of repetitions. A conjunction is read off its two parts, and a box off its axes, also when a variable comes
twice or is the parameter of an axis.
-/

namespace ArrayPlan

theorem foldl_appendNew {α : Type} [DecidableEq α] (l items : List α) :
    items.foldl (fun l x => if x ∈ l then l else l ++ [x]) l = l ++ (items.filter (· ∉ l)).eraseDups := by
  induction items generalizing l with
  | nil => simp
  | cons x items ih =>
    rw [List.foldl_cons]
    by_cases hx : x ∈ l
    · rw [if_pos hx, ih, List.filter_cons_of_neg (by simpa using hx)]
    · have hfilter : items.filter (· ∉ l ++ [x]) = (items.filter (· ∉ l)).filter fun y => !y == x := by
        rw [List.filter_filter]
        refine List.filter_congr fun y _ => ?_
        by_cases hy : y = x <;> simp [hy, hx]
      rw [if_neg hx, ih, List.filter_cons_of_pos (by simpa using hx), List.eraseDups_cons, hfilter, List.append_assoc]
      rfl

namespace Extent

variable {lookup : String → Option Int}

def limit? (lookup : String → Option Int) : Extent → Option Int
  | fixed n => some n
  | symbolic name => lookup name

/-- The limit as constraints have it: a fixed length is read as a signed word. -/
def wordLimit? (lookup : String → Option Int) : Extent → Option Int
  | fixed n => some (Word.signed n)
  | symbolic name => lookup name

theorem wordLimit?_eq_limit? {extent : Extent} (hword : ∀ n, extent = fixed n → n < 2 ^ 63) :
    extent.wordLimit? lookup = extent.limit? lookup := by
  cases extent with
  | fixed n =>
    have hn : (n : Int) ≤ Word.greatest := by
      have := hword n rfl
      simp only [Word.greatest]
      omega
    rw [wordLimit?, limit?, Word.signed_of_le_greatest hn]
  | symbolic name => rfl

theorem isSome_wordLimit? (extent : Extent) : (extent.wordLimit? lookup).isSome = (extent.limit? lookup).isSome := by
  cases extent <;> simp [wordLimit?, limit?]

end Extent

theorem Constraint.holds?_eq_none_iff {lookup : String → Option Int} {c : Constraint} :
    c.holds? lookup = none ↔ ∃ name ∈ c.form.names, lookup name = none := by
  rw [holds?, Option.map_eq_none_iff, ← Option.not_isSome_iff_eq_none, Affine.value?_isSome_iff_names]
  simp

namespace Domain

variable {d e : Domain} {lookup : String → Option Int}

theorem contains?_eq_none_iff : d.contains? lookup = none ↔ ∃ c ∈ d.constraints, c.holds? lookup = none := by
  have hfold : ∀ (constraints : List Constraint) (all : Bool),
      constraints.foldlM (fun all c => (c.holds? lookup).map (all && ·)) all = none ↔
        ∃ c ∈ constraints, c.holds? lookup = none := by
    intro constraints
    induction constraints with
    | nil => simp
    | cons c constraints ih =>
      intro all
      rw [List.foldlM_cons]
      cases hc : c.holds? lookup with
      | none => simp [hc]
      | some b => simpa [hc] using ih (all && b)
  exact hfold d.constraints true

theorem contains?_congr (h : ∀ c, c ∈ d.constraints ↔ c ∈ e.constraints) : d.contains? lookup = e.contains? lookup := by
  have hnone : d.contains? lookup = none ↔ e.contains? lookup = none := by
    simp only [contains?_eq_none_iff, h]
  have htrue : d.contains? lookup = some true ↔ e.contains? lookup = some true := by
    simp only [contains?_eq_true_iff, h]
  revert hnone htrue
  rcases d.contains? lookup with _ | _ | _ <;> rcases e.contains? lookup with _ | _ | _ <;> simp

section Meet

theorem constraints_foldl_constrain (constraints : List Constraint) (d : Domain) :
    (constraints.foldl constrain d).constraints =
      d.constraints ++ (constraints.filter (· ∉ d.constraints)).eraseDups := by
  rw [← foldl_appendNew]
  induction constraints generalizing d with
  | nil => rfl
  | cons c constraints ih =>
    rw [List.foldl_cons, List.foldl_cons, ih, constrain]
    split <;> rfl

theorem vars_meet (d e : Domain) : (d.meet e).vars = d.vars ++ (e.vars.filter (· ∉ d.vars)).eraseDups := by
  rw [← foldl_appendNew, meet]
  refine List.foldlRecOn (motive := fun f : Domain => f.vars = _) e.constraints constrain rfl fun f hf c _ => ?_
  rw [vars_constrain, hf]

theorem constraints_meet (d e : Domain) :
    (d.meet e).constraints = d.constraints ++ (e.constraints.filter (· ∉ d.constraints)).eraseDups :=
  constraints_foldl_constrain e.constraints _

theorem mem_constraints_meet {c : Constraint} :
    c ∈ (d.meet e).constraints ↔ c ∈ d.constraints ∨ c ∈ e.constraints := by
  rw [constraints_meet, List.mem_append, List.mem_eraseDups, List.mem_filter, decide_eq_true_eq]
  tauto

theorem contains?_meet_eq_true_iff : (d.meet e).contains? lookup = some true ↔
    d.contains? lookup = some true ∧ e.contains? lookup = some true := by
  simp only [contains?_eq_true_iff, mem_constraints_meet, or_imp, forall_and]

theorem contains?_meet_eq_none_iff : (d.meet e).contains? lookup = none ↔
    d.contains? lookup = none ∨ e.contains? lookup = none := by
  simp only [contains?_eq_none_iff, mem_constraints_meet, or_and_right, exists_or]

end Meet

section Box

variable {v : String} {extent : Extent} {axes : List (String × Extent)}

def Below (lookup : String → Option Int) (v : String) (limit : Option Int) : Prop :=
  ∃ x n, lookup v = some x ∧ limit = some n ∧ 0 ≤ x ∧ x < n

theorem holds_lower {x : Int} (hx : lookup v = some x) : (lower v).holds? lookup = some (decide (0 ≤ x)) :=
  Constraint.holds?_le (a := .ofConstant 0) rfl ((Affine.value?_ofVar lookup v).trans hx)

theorem value?_lastPosition {n : Int} (h : extent.wordLimit? lookup = some n) :
    (lastPosition extent).value? lookup = some (n - 1) := by
  cases extent with
  | fixed k =>
    obtain rfl := Option.some.inj h
    rfl
  | symbolic name => exact Affine.value?_addConstant ((Affine.value?_ofVar lookup name).trans h) (-1)

theorem holds_upper {x n : Int} (hx : lookup v = some x) (hn : extent.wordLimit? lookup = some n) :
    (upper v extent).holds? lookup = some (decide (x < n)) := by
  rw [upper, Constraint.holds?_le ((Affine.value?_ofVar lookup v).trans hx) (value?_lastPosition hn)]
  exact congrArg some (decide_eq_decide.2 Int.le_sub_one_iff)

theorem exists_of_holds_lower (h : (lower v).holds? lookup = some true) : ∃ x, lookup v = some x := by
  obtain ⟨r, hr, _⟩ := Option.map_eq_some_iff.1 h
  exact Option.isSome_iff_exists.1 ((Affine.value?_eq_some_iff.1 hr).1 v (by simp [Affine.names, form_lower]))

theorem exists_of_holds_upper {x : Int} (hx : lookup v = some x) (h : (upper v extent).holds? lookup = some true) :
    ∃ n, extent.wordLimit? lookup = some n := by
  cases extent with
  | fixed n => exact ⟨_, rfl⟩
  | symbolic name =>
    by_cases hname : name = v
    · exact ⟨x, hname ▸ hx⟩
    · obtain ⟨r, hr, _⟩ := Option.map_eq_some_iff.1 h
      refine Option.isSome_iff_exists.1 ((Affine.value?_eq_some_iff.1 hr).1 name ?_)
      simp [Affine.names, form_upper_symbolic hname]

theorem holds_axis_iff : (lower v).holds? lookup = some true ∧ (upper v extent).holds? lookup = some true ↔
    Below lookup v (extent.wordLimit? lookup) := by
  constructor
  · rintro ⟨hlower, hupper⟩
    obtain ⟨x, hx⟩ := exists_of_holds_lower hlower
    obtain ⟨n, hn⟩ := exists_of_holds_upper hx hupper
    rw [holds_lower hx] at hlower
    rw [holds_upper hx hn] at hupper
    exact ⟨x, n, hx, hn, by simpa using hlower, by simpa using hupper⟩
  · rintro ⟨x, n, hx, hn, hnonneg, hlt⟩
    rw [holds_lower hx, holds_upper hx hn, decide_eq_true hnonneg, decide_eq_true hlt]
    exact ⟨rfl, rfl⟩

theorem contains?_box_eq_true_iff : (box axes).contains? lookup = some true ↔
    ∀ a ∈ axes, Below lookup a.1 (a.2.wordLimit? lookup) := by
  simp only [contains?_eq_true_iff, mem_box, ← holds_axis_iff]
  constructor
  · exact fun h a ha => ⟨h _ ⟨a, ha, .inl rfl⟩, h _ ⟨a, ha, .inr rfl⟩⟩
  · rintro h c ⟨a, ha, rfl | rfl⟩
    · exact (h a ha).1
    · exact (h a ha).2

theorem contains?_box_ne_none (hbound : ∀ a ∈ axes, (lookup a.1).isSome ∧ (a.2.limit? lookup).isSome) :
    (box axes).contains? lookup ≠ none := by
  intro hnone
  obtain ⟨c, hc, hunanswered⟩ := contains?_eq_none_iff.1 hnone
  obtain ⟨a, ha, haxis⟩ := mem_box.1 hc
  obtain ⟨hvar, hlimit⟩ := hbound a ha
  rw [← Extent.isSome_wordLimit?] at hlimit
  obtain ⟨x, hx⟩ := Option.isSome_iff_exists.1 hvar
  obtain ⟨n, hn⟩ := Option.isSome_iff_exists.1 hlimit
  rcases haxis with rfl | rfl
  · rw [holds_lower hx] at hunanswered
    cases hunanswered
  · rw [holds_upper hx hn] at hunanswered
    cases hunanswered

/-- A length beyond the signed words is read as a negative number, and no position is below it. -/
theorem not_below_of_long {n : Nat} (hlow : 2 ^ 63 < n) (hhigh : n < 2 ^ 64) :
    ¬ Below lookup v ((Extent.fixed n).wordLimit? lookup) := by
  rintro ⟨x, m, _, hm, hnonneg, hlt⟩
  obtain rfl := Option.some.inj hm
  rw [Word.signed, Word.modulus, Int.bmod_def] at hlt
  omega

end Box

/-- Domains as they are made. -/
inductive Built : Domain → Prop where
  | unconstrained (vars : List String) : Built (unconstrained vars)
  | box (axes : List (String × Extent)) : Built (box axes)
  | between {d : Domain} (h : Built d) (low : Int) (v : String) (extent : Extent) : Built (d.between low v extent)
  | constrain {d : Domain} (h : Built d) (c : Constraint) : Built (d.constrain c)
  | meet {d e : Domain} (h : Built d) (h' : Built e) : Built (d.meet e)

theorem nodup_constrain (h : d.constraints.Nodup) (c : Constraint) : (d.constrain c).constraints.Nodup := by
  rw [constrain]
  split
  · exact h
  · rename_i hc
    exact List.nodup_append.2 ⟨h, List.nodup_singleton c, fun a ha b hb hab =>
      hc (List.mem_singleton.1 hb ▸ hab ▸ ha)⟩

theorem nodup_between (h : d.constraints.Nodup) (low : Int) (v : String) (extent : Extent) :
    (d.between low v extent).constraints.Nodup :=
  nodup_constrain (nodup_constrain h _) _

theorem Built.nodup (h : Built d) : d.constraints.Nodup := by
  induction h with
  | unconstrained vars => exact List.nodup_nil
  | box axes =>
    refine List.foldlRecOn (motive := fun d : Domain => d.constraints.Nodup) axes _ List.nodup_nil fun d hd a _ => ?_
    exact nodup_between (d := { d with vars := d.vars ++ [a.1] }) hd 0 a.1 a.2
  | between _ low v extent ih => exact nodup_between ih low v extent
  | constrain _ c ih => exact nodup_constrain ih c
  | @meet d e _ _ ih _ =>
    exact List.foldlRecOn (motive := fun d : Domain => d.constraints.Nodup) e.constraints _ ih
      fun _ hd c _ => nodup_constrain hd c

/-- A box contains what lies within all its axes, and nothing when the length of one is beyond the signed words. A
domain has an answer unless a name in a constraint is unbound, in whatever order the constraints stand. A conjunction
contains what both parts contain, takes over the first part and adds what is new in the second, each once. -/
theorem membership_laws :
    (∀ axes : List (String × Extent), (∀ a ∈ axes, ∀ n, a.2 = .fixed n → n < 2 ^ 63) →
      ∀ lookup : String → Option Int,
        ((box axes).contains? lookup = some true ↔ ∀ a ∈ axes, Below lookup a.1 (a.2.limit? lookup)) ∧
        ((∀ a ∈ axes, (lookup a.1).isSome ∧ (a.2.limit? lookup).isSome) → (box axes).contains? lookup ≠ none)) ∧
    (∀ axes : List (String × Extent), (∃ a ∈ axes, ∃ n, a.2 = .fixed n ∧ 2 ^ 63 < n ∧ n < 2 ^ 64) →
      ∀ lookup, (box axes).contains? lookup ≠ some true) ∧
    (∀ (d : Domain) (lookup : String → Option Int),
      (d.contains? lookup = none ↔ ∃ c ∈ d.constraints, ∃ name ∈ c.form.names, lookup name = none) ∧
      ∀ constraints, constraints.Perm d.constraints → contains? lookup ⟨d.vars, constraints⟩ = d.contains? lookup) ∧
    ∀ d e : Domain,
      (∀ lookup,
        ((d.meet e).contains? lookup = some true ↔ d.contains? lookup = some true ∧ e.contains? lookup = some true) ∧
        ((d.meet e).contains? lookup = none ↔ d.contains? lookup = none ∨ e.contains? lookup = none)) ∧
      (d.meet e).vars = d.vars ++ (e.vars.filter (· ∉ d.vars)).eraseDups ∧
      (d.meet e).constraints = d.constraints ++ (e.constraints.filter (· ∉ d.constraints)).eraseDups ∧
      (Built d → Built e → (d.meet e).constraints.Nodup) := by
  refine ⟨fun axes hword lookup => ⟨?_, contains?_box_ne_none⟩, fun axes hlong lookup h => ?_,
    fun d lookup => ⟨?_, fun constraints hperm => contains?_congr fun c => hperm.mem_iff⟩, fun d e => ?_⟩
  · rw [contains?_box_eq_true_iff]
    exact forall₂_congr fun a ha => by rw [Extent.wordLimit?_eq_limit? (hword a ha)]
  · obtain ⟨a, ha, n, hn, hlow, hhigh⟩ := hlong
    have hbelow := contains?_box_eq_true_iff.1 h a ha
    rw [hn] at hbelow
    exact not_below_of_long hlow hhigh hbelow
  · simp only [contains?_eq_none_iff, Constraint.holds?_eq_none_iff]
  · exact ⟨fun lookup => ⟨contains?_meet_eq_true_iff, contains?_meet_eq_none_iff⟩, vars_meet d e, constraints_meet d e,
      fun hd he => (hd.meet he).nodup⟩

def grid : Domain :=
  box [("i", .fixed 3), ("j", .symbolic "n")]

def square : Domain :=
  box [("j", .fixed 2), ("i", .fixed 3), ("i", .fixed 2)]

theorem membership_laws_grid :
    grid.contains? ([("i", 2), ("j", 3), ("n", 4)].lookup ·) = some true ∧
    grid.contains? ([("i", 2), ("j", 3)].lookup ·) = none ∧
    grid.contains? ([("i", 7), ("j", 3), ("n", 4)].lookup ·) ≠ none ∧
    (box [("i", .fixed 9223372036854775810)]).contains? ([("i", 0)].lookup ·) ≠ some true ∧
    (grid.meet square).contains? ([("i", 1), ("j", 1), ("n", 4)].lookup ·) = some true ∧
    (grid.meet square).vars = ["i", "j"] ∧ (grid.meet square).constraints.length = 6 ∧
    (grid.meet square).constraints.Nodup := by
  obtain ⟨hbox, hlong, hnames, hmeet⟩ := membership_laws
  have hgrid := hbox [("i", .fixed 3), ("j", .symbolic "n")] (by simp)
  have hsquare := hbox [("j", .fixed 2), ("i", .fixed 3), ("i", .fixed 2)] (by simp)
  obtain ⟨hboth, hvars, hconstraints, hnodup⟩ := hmeet grid square
  refine ⟨(hgrid _).1.2 ?_, (hnames grid _).1.2 ?_, (hgrid _).2 (by decide +kernel), hlong _ ?_ _,
    (hboth _).1.2 ⟨(hgrid _).1.2 ?_, (hsquare _).1.2 ?_⟩, hvars.trans (by decide +kernel),
    (congrArg List.length hconstraints).trans (by decide +kernel), hnodup (.box _) (.box _)⟩
  · simp only [List.forall_mem_cons]
    exact ⟨⟨2, 3, rfl, rfl, by decide, by decide⟩, ⟨3, 4, rfl, rfl, by decide, by decide⟩, by simp⟩
  · exact ⟨upper "j" (.symbolic "n"), mem_box.2 ⟨_, List.mem_cons_of_mem _ List.mem_cons_self, .inr rfl⟩, "n",
      by decide +kernel, rfl⟩
  · exact ⟨_, List.mem_cons_self, _, rfl, by decide, by decide⟩
  · simp only [List.forall_mem_cons]
    exact ⟨⟨1, 3, rfl, rfl, by decide, by decide⟩, ⟨1, 4, rfl, rfl, by decide, by decide⟩, by simp⟩
  · simp only [List.forall_mem_cons]
    exact ⟨⟨1, 2, rfl, rfl, by decide, by decide⟩, ⟨1, 3, rfl, rfl, by decide, by decide⟩,
      ⟨1, 2, rfl, rfl, by decide, by decide⟩, by simp⟩

end Domain

end ArrayPlan
