import ArrayPlan.Proofs.Extents

/-!
Values under loads. Where arrays hold the values of backed rules, an expression keeps its value when the calls of
these rules become loads, in arguments, in indices and under sums as well, as long as the calls that its evaluation
comes to stay in the boxes of the arrays. The calls are collected along the evaluation, so the value of the one form
becomes a value of the other call by call.
-/

namespace ArrayPlan

/-- A call with the bindings under which its arguments are evaluated. -/
structure Invocation where
  rule : String
  args : List Expr
  env : Env

namespace Expr

mutual

/-- The calls that the evaluation of an expression comes to, each after those in its arguments. What the called rules
call in turn is left out. -/
def invocations (domains : List Domain) : Expr → Env → List Invocation
  | .call rule args, env => invocationsAll domains args env ++ [⟨rule, args, env⟩]
  | .load _ index, env => invocationsAll domains index env
  | .arith _ lhs rhs, env => invocations domains lhs env ++ invocations domains rhs env
  | .compare _ lhs rhs, env => invocations domains lhs env ++ invocations domains rhs env
  | .sum vars body, env =>
    match pointsOver domains vars env with
    | .ok points => points.flatMap (invocations domains body)
    | .error _ => []
  | _, _ => []

def invocationsAll (domains : List Domain) : List Expr → Env → List Invocation
  | [], _ => []
  | e :: es, env => invocations domains e env ++ invocationsAll domains es env

end

end Expr

instance : ExactOrigin Float :=
  ⟨by decide⟩

variable {α : Type} [Scalar α]

namespace Interpretation

def AnswersAs (I J : Interpretation α) (c : Invocation) : Prop :=
  ∀ index v, I.position? c.args c.env = some index → I.call c.rule index = some v → J.call c.rule index = some v

variable {I J : Interpretation α} {domains : List Domain}

mutual

theorem value?_of_invocations (hload : J.load = I.load) (hpoints : J.points = I.points)
    (hdomains : I.points = fun vars env => (pointsOver domains vars env).toOption) :
    ∀ (e : Expr) (env : Env) (v : α), (∀ c ∈ e.invocations domains env, I.AnswersAs J c) →
      I.value? e env = some v → J.value? e env = some v
  | .int _, _, _, _, hv => hv
  | .real _, _, _, _, hv => hv
  | .var _, _, _, _, hv => hv
  | .call rule args, env, v, hcalls, hv => by
    simp only [value?] at hv ⊢
    obtain ⟨vs, hvs, hv⟩ := Option.bind_eq_some_iff.1 hv
    have hargs := values?_of_invocations hload hpoints hdomains args env vs
      (fun c hc => hcalls c (List.mem_append_left _ hc)) hvs
    have hposition : I.position? args env = some (vs.map Scalar.toIndex) := Option.map_eq_some_iff.2 ⟨vs, hvs, rfl⟩
    exact Option.bind_eq_some_iff.2
      ⟨vs, hargs, hcalls ⟨rule, args, env⟩ (List.mem_append_right _ List.mem_cons_self) _ v hposition hv⟩
  | .load array index, env, v, hcalls, hv => by
    simp only [value?] at hv ⊢
    obtain ⟨vs, hvs, hv⟩ := Option.bind_eq_some_iff.1 hv
    rw [values?_of_invocations hload hpoints hdomains index env vs hcalls hvs, hload]
    exact hv
  | .arith op lhs rhs, env, v, hcalls, hv => by
    simp only [value?] at hv ⊢
    obtain ⟨a, ha, hv⟩ := Option.bind_eq_some_iff.1 hv
    obtain ⟨b, hb, rfl⟩ := Option.map_eq_some_iff.1 hv
    rw [value?_of_invocations hload hpoints hdomains lhs env a (fun c hc => hcalls c (List.mem_append_left _ hc)) ha,
      value?_of_invocations hload hpoints hdomains rhs env b (fun c hc => hcalls c (List.mem_append_right _ hc)) hb]
    rfl
  | .compare op lhs rhs, env, v, hcalls, hv => by
    simp only [value?] at hv ⊢
    obtain ⟨a, ha, hv⟩ := Option.bind_eq_some_iff.1 hv
    obtain ⟨b, hb, rfl⟩ := Option.map_eq_some_iff.1 hv
    rw [value?_of_invocations hload hpoints hdomains lhs env a (fun c hc => hcalls c (List.mem_append_left _ hc)) ha,
      value?_of_invocations hload hpoints hdomains rhs env b (fun c hc => hcalls c (List.mem_append_right _ hc)) hb]
    rfl
  | .sum vars body, env, v, hcalls, hv => by
    simp only [value?] at hv ⊢
    obtain ⟨points, hfound, hv⟩ := Option.bind_eq_some_iff.1 hv
    have hover : pointsOver domains vars env = .ok points := by
      rw [hdomains] at hfound
      exact toOption_eq_some.1 hfound
    rw [Expr.invocations, hover] at hcalls
    refine Option.bind_eq_some_iff.2 ⟨points, hpoints ▸ hfound, foldlM_mono ?_ hv⟩
    intro point hpoint total total' hstep
    obtain ⟨w, hw, rfl⟩ := Option.map_eq_some_iff.1 hstep
    rw [value?_of_invocations hload hpoints hdomains body point w
      (fun c hc => hcalls c (List.mem_flatMap.2 ⟨point, hpoint, hc⟩)) hw]
    rfl

theorem values?_of_invocations (hload : J.load = I.load) (hpoints : J.points = I.points)
    (hdomains : I.points = fun vars env => (pointsOver domains vars env).toOption) :
    ∀ (es : List Expr) (env : Env) (vs : List α), (∀ c ∈ Expr.invocationsAll domains es env, I.AnswersAs J c) →
      I.values? es env = some vs → J.values? es env = some vs
  | [], _, _, _, hvs => hvs
  | e :: es, env, vs, hcalls, hvs => by
    simp only [values?] at hvs ⊢
    obtain ⟨v, hv, hvs⟩ := Option.bind_eq_some_iff.1 hvs
    obtain ⟨vs, hrest, rfl⟩ := Option.map_eq_some_iff.1 hvs
    rw [value?_of_invocations hload hpoints hdomains e env v (fun c hc => hcalls c (List.mem_append_left _ hc)) hv,
      values?_of_invocations hload hpoints hdomains es env vs (fun c hc => hcalls c (List.mem_append_right _ hc)) hrest]
    rfl

end

end Interpretation

namespace Setting

/-- The values of a rule at all indices of a buffer are stored in it. A rule without parameters has its value in the
only element. -/
structure Keeps (s : Setting α) (r : Rule) (b : Buffer α) : Prop where
  scalar : r.params = [] → b.lengths = [1] ∧ ∀ v, s.value r.body s.parameters = .ok v → b.read [0] = .ok v
  element : r.params ≠ [] → ∀ index, index.length = r.params.length → InBox index b.lengths →
    ∀ v, s.value r.body (s.parameters.bindAll (r.params.zip index)) = .ok v → b.read index = .ok v

theorem Keeps.of_boxPoints {s : Setting α} {r : Rule} {b : Buffer α}
    (hscalar : r.params = [] → b.lengths = [1] ∧ (s.value r.body s.parameters).toOption = (b.read [0]).toOption)
    (helement : r.params ≠ [] → ∀ index ∈ boxPoints b.lengths,
      (s.value r.body (s.parameters.bindAll (r.params.zip index))).toOption = (b.read index).toOption) : s.Keeps r b where
  scalar hnone := ⟨(hscalar hnone).1, fun _ hv => toOption_eq_some.1 ((hscalar hnone).2 ▸ toOption_eq_some.2 hv)⟩
  element hsome index _ hbox _ hv :=
    toOption_eq_some.1 (helement hsome index (mem_boxPoints.2 hbox) ▸ toOption_eq_some.2 hv)

def Backs (s : Setting α) (t : BackingTable) (i : Nat) : Prop :=
  ∀ rule array, t.arrayAt? rule i = some array →
    ∃ r b, s.rule rule = .ok r ∧ s.memory.buffer array = .ok b ∧ s.Keeps r b

/-- The arguments of a call are in the box of the array that the table shows for its rule, if it shows one and there are
any arguments. -/
def StaysInside (s : Setting α) (t : BackingTable) (i : Nat) (c : Invocation) : Prop :=
  ∀ array b index, t.arrayAt? c.rule i = some array → s.memory.buffer array = .ok b → c.args ≠ [] →
    s.position c.args c.env = .ok index → InBox index b.lengths

instance decidableStaysInside (s : Setting α) (t : BackingTable) (i : Nat) (c : Invocation) :
    Decidable (s.StaysInside t i c) :=
  decidable_of_iff (∀ array ∈ t.arrayAt? c.rule i, ∀ b ∈ (s.memory.buffer array).toOption, c.args ≠ [] →
      ∀ index ∈ (s.position c.args c.env).toOption, InBox index b.lengths) (by
    simp only [Option.mem_def, toOption_eq_some]
    exact ⟨fun h array b index hseen hb hargs hindex => h array hseen b hb hargs index hindex,
      fun h array hseen b hb hargs index hindex => h array b index hseen hb hargs hindex⟩)

end Setting

namespace Kernel

variable {k : Kernel} {parameters : Env} {m : Memory α} {t : BackingTable} {i : Nat}

theorem value?_body_of_call {load : String → List Int → Option α} {depth : Nat} {name : String} {index : List Int} {v : α}
    (hv : (k.readingTo parameters load depth).call name index = some v) :
    ∃ r, k.rule? name = some r ∧ r.params.length = index.length ∧
      (k.readingTo parameters load depth).value? r.body (parameters.bindAll (r.params.zip index)) = some v := by
  cases depth with
  | zero => cases hv
  | succ depth =>
    obtain ⟨r, hr, hv⟩ := Option.bind_eq_some_iff.1 hv
    split at hv
    · rename_i hlength
      exact ⟨r, hr, hlength,
        Interpretation.value?_mono (readingTo_below k parameters load depth) r.body (Expr.within_true _) _ v hv⟩
    · cases hv

theorem answersAs_redirect [ExactOrigin α] (hstored : (k.setting parameters m).Backs t i) {c : Invocation}
    (hinside : (k.setting parameters m).StaysInside t i c) {I : Interpretation α}
    (hI : I = k.readingTo parameters m.load? (k.setting parameters m).depth) : I.AnswersAs (I.redirect t i) c := by
  intro index v hposition hv
  simp only [Interpretation.redirect]
  cases hseen : t.arrayAt? c.rule i with
  | none => exact hv
  | some array =>
    obtain ⟨r, b, hrule, hbuffer, hkeeps⟩ := hstored c.rule array hseen
    subst hI
    obtain ⟨r', hfound, hlength, hbody⟩ := value?_body_of_call hv
    obtain rfl : r' = r := Option.some.inj
      (hfound.symm.trans ((Setting.toOption_rule (s := k.setting parameters m) c.rule).symm.trans (toOption_eq_some.2 hrule)))
    have hvalue : (k.setting parameters m).value r'.body (parameters.bindAll (r'.params.zip index)) = .ok v :=
      toOption_eq_some.1 ((toOption_value_readingTo k parameters m _ _).trans hbody)
    have hread : b.read (Interpretation.loadedIndex α index) = .ok v := by
      by_cases hnone : r'.params = []
      · obtain rfl : index = [] := List.length_eq_zero_iff.1 (by rw [← hlength, hnone]; rfl)
        rw [hnone] at hvalue
        rw [Interpretation.loadedIndex, if_pos rfl, ExactOrigin.toIndex_ofInt_zero]
        exact (hkeeps.scalar hnone).2 v hvalue
      · have hindex : index ≠ [] := by
          rintro rfl
          exact hnone (List.length_eq_zero_iff.1 hlength)
        have hsome : c.args ≠ [] := by
          intro hempty
          rw [hempty] at hposition
          exact hindex (Option.some.inj hposition).symm
        have hargs : (k.setting parameters m).position c.args c.env = .ok index :=
          toOption_eq_some.1 ((toOption_position_readingTo k parameters m c.args c.env).trans hposition)
        rw [Interpretation.loadedIndex, if_neg hindex]
        exact hkeeps.element hnone index hlength.symm (hinside array b index hseen hbuffer hsome hargs) v hvalue
    have hload : m.load? array (Interpretation.loadedIndex α index) = some v := by
      have hbuffer' : m.buffer array = .ok b := hbuffer
      rw [Memory.load?, hbuffer']
      exact toOption_eq_some.2 hread
    rw [readingTo_load]
    exact hload

/-- Where the arrays hold the values of the rules, an expression has the same value with loads in place of their calls. -/
theorem value_loadBacked [ExactOrigin α] (k : Kernel) (parameters : Env) (m : Memory α) (t : BackingTable) (i : Nat)
    (hstored : (k.setting parameters m).Backs t i) (e : Expr) (env : Env) (v : α)
    (hvalue : (k.setting parameters m).value e env = .ok v)
    (hinside : ∀ c ∈ e.invocations k.domains env, (k.setting parameters m).StaysInside t i c) :
    (k.setting parameters m).value (e.loadBacked t i) env = .ok v := by
  obtain ⟨I, hI⟩ : ∃ I, I = k.readingTo parameters m.load? (k.setting parameters m).depth := ⟨_, rfl⟩
  have hpoints : I.points = fun vars env => (pointsOver k.domains vars env).toOption := by
    rw [hI, readingTo_points]
  have hfirst : I.value? e env = some v := by
    rw [hI, ← toOption_value_readingTo, hvalue]
    rfl
  have hsecond : (I.redirect t i).value? e env = some v :=
    Interpretation.value?_of_invocations (I := I) (J := I.redirect t i) rfl rfl hpoints e env v
      (fun c hc => answersAs_redirect hstored (hinside c hc) hI) hfirst
  refine toOption_eq_some.1 ?_
  rw [toOption_value_readingTo, ← hI, Interpretation.value?_loadBacked]
  exact hsecond

def squares : Kernel :=
  ⟨[Domain.box [("j", .fixed 3)]], [], [],
    [⟨"square", ["i"], .arith .mul (.var "i") (.var "i")⟩, ⟨"seven", [], .int 7⟩], [], none⟩

def squaresStored : Memory Int :=
  ⟨[("arr0", ⟨[3], #[0, 1, 4], ∅⟩), ("arr1", ⟨[1], #[7], ∅⟩)]⟩

def bothStored : BackingTable :=
  ⟨[("square", ⟨"arr0", 0⟩), ("seven", ⟨"arr1", 0⟩)]⟩

def weighted : Expr :=
  .arith .add (.load "arr0" [.call "square" [.int 1]])
    (.sum ["j"] (.arith .mul (.call "square" [.arith .sub (.var "j") (.call "square" [.int 0])]) (.call "seven" [])))

theorem backs_bothStored : (squares.setting .empty squaresStored).Backs bothStored 0 := by
  intro rule array hseen
  by_cases hsquare : rule = "square"
  · subst hsquare
    obtain rfl : "arr0" = array := Option.some.inj hseen
    exact ⟨_, _, rfl, rfl, .of_boxPoints (fun h => by cases h) fun _ => by decide +kernel⟩
  · by_cases hseven : rule = "seven"
    · subst hseven
      obtain rfl : "arr1" = array := Option.some.inj hseen
      exact ⟨_, _, rfl, rfl, .of_boxPoints (fun _ => ⟨rfl, by decide +kernel⟩) fun h => absurd rfl h⟩
    · simp [BackingTable.arrayAt?, BackingTable.find?, bothStored, List.lookup_cons, beq_eq_false_iff_ne.2 hsquare,
        beq_eq_false_iff_ne.2 hseven] at hseen

theorem value_loadBacked_weighted :
    (squares.setting .empty squaresStored).value (weighted.loadBacked bothStored 0) .empty = .ok 36 :=
  value_loadBacked squares .empty squaresStored bothStored 0 backs_bothStored weighted .empty 36
    (toOption_eq_some.1 (by decide +kernel)) (by decide +kernel)

end Kernel

end ArrayPlan
