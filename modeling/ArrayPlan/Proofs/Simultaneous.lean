import ArrayPlan.Proofs.Realization
import ArrayPlan.Proofs.Script

/-!
Writes as simultaneous assignments. A statement is executed point by point, so a point may read what an
earlier point has stored. Where no point depends on such an element, the statement does what it would do if
all values and positions were found first. The statement of a first write never reads its array at all.
-/

namespace ArrayPlan

variable {α : Type} [Scalar α]

namespace Kernel

def evaluateAt (k : Kernel) (parameters : Env) (s : Statement) (m : Memory α) (point : Env) :
    Except ExecutionFault (String × List Int × α) := do
  let setting := k.setting parameters m
  let value ← setting.value s.value point
  match s.target with
  | .load array index => do
    let position ← setting.position index point
    return (array, position, value)
  | target => .error (.notAnElement target)

def storeAll (m : Memory α) (stores : List (String × List Int × α)) : Except ExecutionFault (Memory α) :=
  stores.foldlM (fun (m : Memory α) o => m.store o.1 o.2.1 o.2.2) m

/-- Executes a statement with all values and positions found before the first store. -/
def executeAtOnce (k : Kernel) (parameters : Env) (m : Memory α) (s : Statement) :
    Except ExecutionFault (Memory α) := do
  let points ← pointsOver k.domains s.within parameters
  let stores ← points.mapM (k.evaluateAt parameters s m)
  storeAll m stores

def StoredAt (k : Kernel) (parameters : Env) (s : Statement) (m : Memory α) (points : List Env) (array : String)
    (index : List Int) : Prop :=
  ∃ point ∈ points, ∃ v, k.outcome? parameters m.load? s point = some (array, index, v)

/-- The loads see the memory with other numbers in the elements stored at the points. -/
structure DiffersAt (k : Kernel) (parameters : Env) (s : Statement) (m : Memory α) (points : List Env)
    (load : String → List Int → Option α) : Prop where
  same : ∀ array index, ¬ k.StoredAt parameters s m points array index → load array index = m.load? array index
  present : ∀ array index, (load array index).isSome = (m.load? array index).isSome

/-- No point depends on an element that an earlier point of the statement stores. -/
def Undisturbed (k : Kernel) (parameters : Env) (s : Statement) (m : Memory α) : Prop :=
  ∀ points, pointsOver k.domains s.within parameters = .ok points →
    ∀ before point after, points = before ++ point :: after →
      ∀ load, k.DiffersAt parameters s m before load →
        k.outcome? parameters load s point = k.outcome? parameters m.load? s point

section Execution

variable {k : Kernel} {parameters : Env} {s : Statement}

theorem toOption_evaluateAt (h : Layered k.rules) (m : Memory α) (point : Env) :
    (k.evaluateAt parameters s m point).toOption = k.outcome? parameters m.load? s point := by
  unfold evaluateAt outcome?
  rw [toOption_bind, toOption_value h]
  cases s.target with
  | load array index =>
    simp only [toOption_bind, toOption_position h]
    cases (k.reading parameters m.load?).value? s.value point with
    | none => rfl
    | some v => cases (k.reading parameters m.load?).position? index point <;> rfl
  | _ => cases (k.reading parameters m.load?).value? s.value point <;> rfl

theorem isSome_load?_store {m m' : Memory α} {array : String} {index : List Int} {v : α}
    (h : m.store array index v = .ok m') (other : String) (otherIndex : List Int) :
    (m'.load? other otherIndex).isSome = (m.load? other otherIndex).isSome := by
  rw [Memory.load?_store h]
  split
  · rename_i hsame
    obtain ⟨rfl, rfl⟩ := hsame
    exact (Memory.store_ok_iff.1 ⟨m', h⟩).symm
  · rfl

theorem toOption_mapM_evaluateAt (h : Layered k.rules) (m : Memory α) (point : Env) (rest : List Env) :
    ((point :: rest).mapM (k.evaluateAt parameters s m)).toOption =
      (k.outcome? parameters m.load? s point).bind fun o =>
        (rest.mapM (k.evaluateAt parameters s m)).toOption.map (o :: ·) := by
  rw [List.mapM_cons, toOption_bind, toOption_evaluateAt h]
  refine congrArg _ (funext fun o => ?_)
  cases rest.mapM (k.evaluateAt parameters s m) <;> rfl

omit [Scalar α] in
theorem toOption_storeAll_cons (m : Memory α) (o : String × List Int × α) (stores : List (String × List Int × α)) :
    (storeAll m (o :: stores)).toOption =
      (m.store o.1 o.2.1 o.2.2).toOption.bind fun m => (storeAll m stores).toOption := by
  rw [storeAll, List.foldlM_cons, toOption_bind]
  rfl

theorem foldlM_storeAt (h : Layered k.rules) (m : Memory α) (points : List Env)
    (hundisturbed : ∀ before point after, points = before ++ point :: after →
      ∀ load, k.DiffersAt parameters s m before load →
        k.outcome? parameters load s point = k.outcome? parameters m.load? s point)
    (before rest : List Env) (hsplit : points = before ++ rest) (now : Memory α)
    (hnow : k.DiffersAt parameters s m before now.load?) :
    (rest.foldlM (k.storeAt parameters s) now).toOption =
      (rest.mapM (k.evaluateAt parameters s m)).toOption.bind fun stores => (storeAll now stores).toOption := by
  induction rest generalizing before now with
  | nil => rfl
  | cons point rest ih =>
    have houtcome := hundisturbed before point rest hsplit now.load? hnow
    rw [List.foldlM_cons, toOption_bind, toOption_storeAt h, houtcome, toOption_mapM_evaluateAt h]
    cases hpoint : k.outcome? parameters m.load? s point with
    | none => rfl
    | some o =>
      simp only [Option.bind_some, Option.bind_map, Function.comp_def, toOption_storeAll_cons]
      cases hstore : now.store o.1 o.2.1 o.2.2 with
      | error fault => cases (rest.mapM (k.evaluateAt parameters s m)).toOption <;> rfl
      | ok next =>
        refine ih (before ++ [point]) (by rw [hsplit, List.append_assoc]; rfl) next ?_
        refine ⟨fun other otherIndex hnot => ?_, fun other otherIndex => ?_⟩
        · rw [Memory.load?_store hstore, if_neg, hnow.same]
          · exact fun ⟨q, hq, w, hw⟩ => hnot ⟨q, List.mem_append_left _ hq, w, hw⟩
          · rintro ⟨rfl, rfl⟩
            exact hnot ⟨point, by simp, o.2.2, hpoint⟩
        · rw [isSome_load?_store hstore, hnow.present]

/-- Points that do not depend on earlier ones may be evaluated all at once. -/
theorem executeStatement_ok_iff_atOnce (h : Layered k.rules) {m : Memory α}
    (hundisturbed : k.Undisturbed parameters s m) (m' : Memory α) :
    k.executeStatement parameters m s = .ok m' ↔ k.executeAtOnce parameters m s = .ok m' := by
  suffices hsame : (k.executeStatement parameters m s).toOption = (k.executeAtOnce parameters m s).toOption by
    rw [← toOption_eq_some, ← toOption_eq_some, hsame]
  unfold executeStatement executeAtOnce
  rw [toOption_bind, toOption_bind]
  cases hpoints : pointsOver k.domains s.within parameters with
  | error fault => rfl
  | ok points =>
    have hstart : k.DiffersAt parameters s m [] m.load? := ⟨fun _ _ _ => rfl, fun _ _ => rfl⟩
    have hall := foldlM_storeAt h m points (hundisturbed points hpoints) [] points rfl m hstart
    rw [Except.toOption, Option.bind_some, Option.bind_some, hall, toOption_bind]

def hidden (k : Kernel) (parameters : Env) (s : Statement) (m : Memory α) (points : List Env) (array : String)
    (index : List Int) : Option α :=
  if points.any fun point =>
      (k.outcome? parameters m.load? s point).any fun o => o.1 = array ∧ o.2.1 = index then none
  else m.load? array index

def foreseen (k : Kernel) (parameters : Env) (s : Statement) (m : Memory α) : Bool :=
  match pointsOver k.domains s.within parameters with
  | .error _ => true
  | .ok points => (List.range points.length).all fun i => points[i]?.all fun point =>
      (k.outcome? parameters (k.hidden parameters s m (points.take i)) s point).isSome

theorem isSome_of_foreseen {m : Memory α} (h : k.foreseen parameters s m = true) {points before after : List Env}
    {point : Env} (hpoints : pointsOver k.domains s.within parameters = .ok points)
    (hsplit : points = before ++ point :: after) :
    (k.outcome? parameters (k.hidden parameters s m before) s point).isSome = true := by
  subst hsplit
  simp only [foreseen, hpoints, List.all_eq_true, List.mem_range] at h
  have hpoint := h before.length (by simp)
  rwa [List.getElem?_append_right (Nat.le_refl _), Nat.sub_self, List.getElem?_cons_zero, List.take_left] at hpoint

theorem undisturbed_of_foreseen (h : Layered k.rules) {m : Memory α} (hforeseen : k.foreseen parameters s m = true) :
    k.Undisturbed parameters s m := by
  intro points hpoints before point after hsplit load hload
  obtain ⟨o, ho⟩ := Option.isSome_iff_exists.1 (isSome_of_foreseen hforeseen hpoints hsplit)
  have hbelow : ∀ load', (∀ array index v, k.hidden parameters s m before array index = some v →
      load' array index = some v) → k.outcome? parameters load' s point = some o := fun load' hload' =>
    outcome?_mono (reading_below_all parameters _ h hload') (Expr.within_true s.value)
      (fun _ index _ => Expr.withinAll_true index) ho
  rw [hbelow load ?_, hbelow m.load? ?_]
  · intro array index v hv
    unfold hidden at hv
    split at hv
    · cases hv
    · exact hv
  · intro array index v hv
    unfold hidden at hv
    split at hv
    · cases hv
    · rename_i hnot
      rw [hload.same, hv]
      rintro ⟨q, hq, w, hw⟩
      exact hnot (List.any_eq_true.2 ⟨q, hq, by simp [hw]⟩)

theorem outcome?_congr {load load' : String → List Int → Option α} {arrays : String → Prop} {n : Nat}
    (h : Layered k.rules) (hbody : ∀ (i : Nat) (r : Rule), i < n → k.rules[i]? = some r →
      r.body.Within (· ∈ ruleNames (k.rules.take i)) arrays (fun _ => True))
    (hvalue : s.value.Within (· ∈ ruleNames (k.rules.take n)) arrays (fun _ => True))
    (htarget : ∀ array index, s.target = .load array index →
      Expr.WithinAll (· ∈ ruleNames (k.rules.take n)) arrays (fun _ => True) index)
    (hload : ∀ array, arrays array → load array = load' array) (point : Env) :
    k.outcome? parameters load s point = k.outcome? parameters load' s point := by
  have hrules : ∀ name, name ∈ ruleNames (k.rules.take n) →
      name ∈ (k.rules.take n).map Rule.name ∨ k.rule? name = none := fun _ hname => .inl hname
  have hmono : ∀ {load load' : String → List Int → Option α}, (∀ array, arrays array → load array = load' array) →
      ∀ o, k.outcome? parameters load s point = some o → k.outcome? parameters load' s point = some o := by
    intro load load' hsame o ho
    exact outcome?_mono (reading_below parameters load h hbody fun array ha index v hv => hsame array ha ▸ hv)
      (hvalue.mono hrules (fun _ h => h) fun _ h => h)
      (fun array index ht => (htarget array index ht).mono hrules (fun _ h => h) fun _ h => h) ho
  exact Option.ext fun o => ⟨hmono hload o, hmono (fun array ha => (hload array ha).symm) o⟩

theorem undisturbed_of_unreached {array : String} {index : List Expr} {n : Nat} (h : Layered k.rules)
    (hs : s.target = .load array index) (hbody : ∀ (i : Nat) (r : Rule), i < n → k.rules[i]? = some r →
      r.body.Within (· ∈ ruleNames (k.rules.take i)) (· ≠ array) (fun _ => True))
    (hvalue : s.value.Within (· ∈ ruleNames (k.rules.take n)) (· ≠ array) (fun _ => True))
    (hindex : Expr.WithinAll (· ∈ ruleNames (k.rules.take n)) (· ≠ array) (fun _ => True) index)
    (m : Memory α) : k.Undisturbed parameters s m := by
  intro points _ before point after _ load hload
  refine outcome?_congr h hbody hvalue (fun array' index' ht => ?_) (fun other hother => ?_) point
  · rw [hs] at ht
    cases ht
    exact hindex
  · funext otherIndex
    refine hload.same other otherIndex ?_
    rintro ⟨q, _, v, hq⟩
    simp only [outcome?, hs] at hq
    obtain ⟨w, _, hq⟩ := Option.bind_eq_some_iff.1 hq
    obtain ⟨position, _, hq⟩ := Option.map_eq_some_iff.1 hq
    exact hother (congrArg Prod.fst hq).symm

end Execution

end Kernel

namespace Plan

section FirstWrite

variable {p p' p'' : Plan} {outputs : List Handle} {os : List Realization} {k : Kernel} {array : String}

theorem ne_of_arrayAt? (hp : p.WellFormed) (hext : p.Extends p') (hlowers : p'.Lowers outputs os k p'')
    (hfresh : array ∉ p.names.taken) (htaken : array ∈ p'.names.taken) {rule other : String} {i : Nat}
    (hi : i ≤ p.rules.size) (hother : p''.backing.arrayAt? rule i = some other) : other ≠ array := by
  obtain ⟨entry, hmem, hvisible, rfl⟩ := BackingTable.exists_entry_of_arrayAt? hother
  rw [hlowers.backing] at hmem
  rcases List.mem_append.1 hmem with hmem | hmem
  · obtain ⟨later, hlater, hvis⟩ := hext.backed
    rw [hlater] at hmem
    rcases List.mem_append.1 hmem with hmem | hmem
    · have hdeclared := hp.arrays_taken _ (hp.backed _ hmem).2.1
      exact fun heq => hfresh (heq ▸ hdeclared)
    · have := hvis _ hmem
      simp only at this
      omega
  · obtain ⟨o, ho, heq⟩ := List.mem_map.1 hmem
    have harray : o.array = entry.array := congrArg (fun e => e.2.array) heq
    rw [← harray]
    exact hlowers.draws.ne_of_taken (List.mem_flatMap.2 ⟨o, ho, by simp⟩) htaken

theorem undisturbed_first (hp : p.WellFormed) (hext : p.Extends p') (hp' : p'.WellFormed)
    (hlowers : p'.Lowers outputs os k p'') (hfresh : array ∉ p.names.taken) (htaken : array ∈ p'.names.taken)
    {s : Statement} {index : List Expr} (hs : s.target = .load array index)
    (hvalue : s.value.Within (· ∈ ruleNames p.rules.rules) (fun _ => False) (fun _ => True))
    (hindex : Expr.WithinAll (· ∈ ruleNames p.rules.rules) (fun _ => False) (fun _ => True) index)
    (parameters : Env) (m : Memory α) :
    k.Undisturbed parameters (s.loadBacked p''.backing p.rules.size) m := by
  obtain ⟨later, hlater⟩ := hext.rules
  have hnames : ruleNames (k.rules.take p.rules.size) = ruleNames p.rules.rules := by
    rw [hlowers.ruleNames_take, hlater, RuleLog.size, List.take_left]
  have hseen : ∀ {rule other : String} {i : Nat}, i ≤ p.rules.size →
      p''.backing.arrayAt? rule i = some other → other ≠ array :=
    fun hi hother => ne_of_arrayAt? hp hext hlowers hfresh htaken hi hother
  have htarget : (s.loadBacked p''.backing p.rules.size).target =
      .load array (Expr.rebuildAll (p''.backing.loadFor? p.rules.size) index) := by
    rw [Statement.loadBacked, hs]
    rfl
  refine Kernel.undisturbed_of_unreached (n := p.rules.size) (hlowers.layered hp') htarget ?_ ?_ ?_ m
  · intro i r hi hr
    obtain ⟨r', hr', rfl⟩ := hlowers.rule_at hr
    rw [hlater, List.getElem?_append_left hi] at hr'
    have htake : (p'.rules.rules.take i) = p.rules.rules.take i := by
      rw [hlater, List.take_append_of_le_length (Nat.le_of_lt hi)]
    rw [hlowers.ruleNames_take, htake]
    have hold : ∀ a, a ∈ arrayNames p.arrays → a ≠ array := fun a ha heq => hfresh (heq ▸ hp.arrays_taken a ha)
    have hbody := (hp.bodies i r' hr').loadBacked hold (fun _ h _ => h) fun _ _ _ hother =>
      hseen (Nat.le_of_lt hi) hother
    exact hbody.mono (fun _ h => h) (fun _ h => h) fun _ _ => trivial
  · rw [hnames]
    exact hvalue.loadBacked (fun _ hf => hf.elim) (fun _ h _ => h) fun _ _ _ hother => hseen (Nat.le_refl _) hother
  · rw [hnames]
    exact hindex.rebuildAll (fun _ hf => hf.elim) (fun _ h _ => h) fun _ _ _ hother => hseen (Nat.le_refl _) hother

end FirstWrite

theorem exists_split_of_queued {p p₂ p₃ : Plan} {outputs : List Handle} {os : List Realization} {k : Kernel}
    (hext : p.Extends p₂) (hlowers : p₂.Lowers outputs os k p₃) {e : Nat × Statement} (he : e ∈ p.pending)
    (hkey : e.1 ≤ p.rules.size) :
    ∃ before after, k.statements = before ++ e.2.loadBacked p₃.backing e.1 :: after := by
  obtain ⟨later, hlater, _⟩ := hext.pending
  have hmem : e ∈ agenda p₂.pending os (p₂.rules.size + 1) :=
    mem_agenda_iff.2 ⟨Nat.lt_succ_of_le (Nat.le_trans hkey hext.size_le), .inl (hlater ▸ List.mem_append_left _ he)⟩
  refine List.append_of_mem ?_
  rw [hlowers.statements]
  exact List.mem_map_of_mem (f := fun e => e.2.loadBacked p₃.backing e.1) hmem

/-- The statement queued for a write assigns simultaneously, if it is that of a first write, or if no point
depends on an element stored at an earlier point. -/
theorem write_simultaneous {p p₁ p₂ p₃ : Plan} {handles handles₂ outputs : List Handle} {h h' : Handle}
    {index : List (Index Handle)} {value : Operand Handle} {withStores : Bool} {k : Kernel}
    (hreach : p.Reachable handles)
    (hrefs : ∀ a ∈ (Operation.write h index value).refs, a.plan = p.id → a ∈ handles)
    (hwrite : (Build.write h index value).runOn p = (.ok h', p₁))
    (hlater : p₁.Evolves (handles ++ [h']) p₂ handles₂)
    (hfinalize : (Build.finalize outputs withStores).runOn p₂ = (.ok k, p₃)) :
    ∃ key s array target before after, p₁.pending.getLast? = some (key, s) ∧ s.target = .load array target ∧
      p₂.backing.array? h'.rule = some array ∧
      k.statements = before ++ s.loadBacked p₃.backing key :: after ∧
      ∀ (parameters : Env) (m : Memory α),
        p.backing.array? h.rule = none ∨ k.Undisturbed parameters (s.loadBacked p₃.backing key) m →
          ∀ m', k.executeStatement parameters m (s.loadBacked p₃.backing key) = .ok m' ↔
            k.executeAtOnce parameters m (s.loadBacked p₃.backing key) = .ok m' := by
  have hp := hreach.wellFormed
  have hlive : ∀ a ∈ (Operation.write h index value).refs, a.plan = p.id → p.Live a :=
    fun a ha hown => hreach.live (hrefs a ha hown)
  have hwrites : p.Writes h index value h' p₁ := (write_outcome hp hlive).of_runOn_ok hwrite
  obtain ⟨hext₁, hp₁, hlive₁⟩ := hwrites.advances hp
  have hlive₁' : ∀ a ∈ handles ++ [h'], p₁.Live a := by
    intro a ha
    rcases List.mem_append.1 ha with ha | ha
    · exact hext₁.live (hreach.live ha)
    · exact List.mem_singleton.1 ha ▸ hlive₁
  obtain ⟨hext₂, hp₂, _⟩ := hlater.invariant hp₁ hlive₁'
  obtain ⟨os, hlowers⟩ := finalize_lowers hp₂ hfinalize
  -- The store is the last statement of the growth, and it stays queued until the plan is lowered.
  have hqueued : ∀ s, (p.rules.size, s) ∈ p₁.pending → ∃ before after,
      k.statements = before ++ s.loadBacked p₃.backing p.rules.size :: after :=
    fun s hs => exists_split_of_queued hext₂ hlowers hs hext₁.size_le
  cases hwrites with
  | again array axes v vars hrequest hbacked hlen hfits hgrown hhandle =>
    have hpending : p₁.pending = p.pending ++ [(p.rules.size, p.storeOf array axes v vars)] := by
      rw [hgrown]
      rfl
    obtain ⟨before, after, hsplit⟩ := hqueued (p.storeOf array axes v vars) (by simp [hpending])
    refine ⟨p.rules.size, p.storeOf array axes v vars, array, _, before, after, by simp [hpending], rfl, ?_,
      hsplit, ?_⟩
    · rw [hhandle]
      exact (hext₁.trans hext₂).array? hbacked
    · intro parameters m hcases
      have hundisturbed := hcases.resolve_left (by simp [hbacked])
      exact Kernel.executeStatement_ok_iff_atOnce (hlowers.layered hp₂) hundisturbed
  | first array axes v copyVars vars params hrequest hbacked hcopy hlen hparams hfits hgrown hhandle =>
    have hpending : p₁.pending = p.pending ++ [(p.rules.size, p.copyOf h array copyVars),
        (p.rules.size, p.storeOf array axes v vars)] := by
      rw [hgrown]
      rfl
    obtain ⟨before, after, hsplit⟩ := hqueued (p.storeOf array axes v vars) (by simp [hpending])
    have hfresh := hfits.draws.unused array (by simp)
    have htaken : array ∈ p₂.names.taken := by
      obtain ⟨issued, hdraws⟩ := hext₂.names
      exact hdraws.taken_mono (hfits.draws.mem_taken (by simp))
    have hscoped : (p.storeOf array axes v vars).Scoped (· ∈ ruleNames p.rules.rules) (fun _ => True)
        (fun _ => True) := storeOf_scoped hrequest trivial fun _ _ => trivial
    obtain ⟨array', target, htarget, _, hindex⟩ := hscoped.target
    cases htarget
    refine ⟨p.rules.size, p.storeOf array axes v vars, array, _, before, after, by simp [hpending], rfl, ?_,
      hsplit, ?_⟩
    · refine hext₂.array? ?_
      have hentry : (h'.rule, (⟨array, p₁.rules.size⟩ : BackingEntry)) ∈ p₁.backing.entries := by
        rw [hgrown]
        simp [grow, firstGrowth, RuleLog.size]
      rw [BackingTable.array?, BackingTable.find?_of_mem hp₁.backed_nodup hentry]
      rfl
    · intro parameters m _
      have hundisturbed := undisturbed_first hp (hext₁.trans hext₂) hp₂ hlowers hfresh htaken rfl hscoped.value
        hindex parameters m
      exact Kernel.executeStatement_ok_iff_atOnce (hlowers.layered hp₂) hundisturbed

theorem exists_ok_of_isOk {ε β σ : Type} {x : Except ε β × σ} (h : x.1.isOk = true) : ∃ b s, x = (.ok b, s) := by
  obtain ⟨outcome, s⟩ := x
  cases outcome with
  | error e => cases h
  | ok b => exact ⟨b, s, rfl⟩

theorem exists_error_of_isOk {ε β σ : Type} {x : Except ε β × σ} (h : x.1.isOk = false) : ∃ e s, x = (.error e, s) := by
  obtain ⟨outcome, s⟩ := x
  cases outcome with
  | error e => exact ⟨e, s, rfl⟩
  | ok b => cases h

def succeedsWith {ε β : Type} (x : Except ε β × Plan) (check : β → Plan → Bool) : Bool :=
  match x with
  | (.ok b, p) => check b p
  | (.error _, _) => false

theorem check_of_succeedsWith {ε β : Type} {x : Except ε β × Plan} {check : β → Plan → Bool}
    (h : succeedsWith x check = true) {b : β} {p : Plan} (hx : x = (.ok b, p)) : check b p = true := by
  rwa [hx] at h

theorem exists_of_succeedsWith {ε β : Type} {x : Except ε β × Plan} {check : β → Plan → Bool}
    (h : succeedsWith x check = true) : ∃ b p, x = (.ok b, p) ∧ check b p = true := by
  obtain ⟨outcome, p⟩ := x
  cases outcome with
  | error e => cases h
  | ok b => exact ⟨b, p, rfl, h⟩

def pairHandle (rule : String) (elementType : ElementType) : Handle :=
  ⟨0, rule, ⟨[.fixed 2], by simp, by simp [Extent.fault?]⟩, elementType, .rowMajor⟩

def lastPasses (p₁ p₃ : Plan) (check : Statement → Bool) : Bool :=
  match p₁.pending.getLast? with
  | none => false
  | some (key, s) => check (s.loadBacked p₃.backing key)

theorem exists_last {p₁ p₃ : Plan} {check : Statement → Bool} (h : lastPasses p₁ p₃ check = true) :
    ∃ key s, p₁.pending.getLast? = some (key, s) ∧ check (s.loadBacked p₃.backing key) = true := by
  unfold lastPasses at h
  split at h
  · cases h
  · exact ⟨_, _, ‹_›, h⟩

theorem wellFormed_of_write {p p₁ : Plan} {handles : List Handle} {h h' : Handle} {index : List (Index Handle)}
    {value : Operand Handle} (hreach : p.Reachable handles)
    (hrefs : ∀ a ∈ (Operation.write h index value).refs, a ∈ handles)
    (hwrite : (Build.write h index value).runOn p = (.ok h', p₁)) : p₁.WellFormed := by
  have hout := perform_outcome hreach.wellFormed (.write h index value) fun a ha _ => hreach.live (hrefs a ha)
  exact (hout.of_runOn_ok hwrite).wellFormed

theorem loadBacked_mem_statements {p₁ p₃ : Plan} {outputs : List Handle} {withStores : Bool} {k : Kernel}
    (hp₁ : p₁.WellFormed) (hfinalize : (Build.finalize outputs withStores).runOn p₁ = (.ok k, p₃)) {key : Nat}
    {s : Statement} (hlast : p₁.pending.getLast? = some (key, s)) : s.loadBacked p₃.backing key ∈ k.statements := by
  obtain ⟨os, hlowers⟩ := finalize_lowers hp₁ hfinalize
  have hmem := List.mem_of_getLast? hlast
  obtain ⟨before, after, hsplit⟩ := exists_split_of_queued (.refl p₁) hlowers hmem (hp₁.pending _ hmem).1
  simp [hsplit]

def successor : Progress :=
  (Progress.start (.empty 0 .default)).run
    [.fill (.extents [.fixed 2]) (.int 3), .combine .add 0 (.literal (.int 1))]

def increment : Progress :=
  (Progress.start (.empty 0 .default)).run
    [.input (.extents [.fixed 2]) .int64, .combine .add 0 (.literal (.int 1))]

def pairMemory : Memory Int :=
  ⟨[("arr0", .ofArray #[10, 20])]⟩

/-- The first write of the fill reads the fill itself. A later write replaces the elements of the input one by one,
each from its own former value. -/
theorem write_simultaneous_successor :
    (∃ (h' : Handle) (p₁ p₃ : Plan) (k : Kernel) (key : Nat) (s : Statement),
      (Build.write (pairHandle "subst0" .float64) [.all] (.array (pairHandle "subst1" .float64))).runOn
        successor.plan = (.ok h', p₁) ∧
      (Build.finalize [pairHandle "subst0" .float64] false).runOn p₁ = (.ok k, p₃) ∧
      p₁.pending.getLast? = some (key, s) ∧ s.loadBacked p₃.backing key ∈ k.statements ∧
      ∀ (parameters : Env) (m m' : Memory Int),
        k.executeStatement parameters m (s.loadBacked p₃.backing key) = .ok m' ↔
          k.executeAtOnce parameters m (s.loadBacked p₃.backing key) = .ok m') ∧
    ∃ (h' : Handle) (p₁ p₃ : Plan) (k : Kernel) (key : Nat) (s : Statement),
      increment.plan.backing.array? "subst0" = some "arr0" ∧
      (Build.write (pairHandle "subst0" .int64) [.all] (.array (pairHandle "subst1" .int64))).runOn
        increment.plan = (.ok h', p₁) ∧
      (Build.finalize [pairHandle "subst0" .int64] false).runOn p₁ = (.ok k, p₃) ∧
      p₁.pending.getLast? = some (key, s) ∧ s.loadBacked p₃.backing key ∈ k.statements ∧
      k.Undisturbed .empty (s.loadBacked p₃.backing key) pairMemory ∧
      ∀ m', k.executeStatement .empty pairMemory (s.loadBacked p₃.backing key) = .ok m' ↔
        k.executeAtOnce .empty pairMemory (s.loadBacked p₃.backing key) = .ok m' := by
  constructor
  · obtain ⟨h', p₁, hwrite⟩ := exists_ok_of_isOk (x := (Build.write (pairHandle "subst0" .float64) [.all]
      (.array (pairHandle "subst1" .float64))).runOn successor.plan) (by decide +kernel)
    obtain ⟨k, p₃, hfinalize⟩ : ∃ k p₃,
        (Build.finalize [pairHandle "subst0" .float64] false).runOn p₁ = (.ok k, p₃) := by
      refine exists_ok_of_isOk ?_
      obtain rfl : ((Build.write (pairHandle "subst0" .float64) [.all]
        (.array (pairHandle "subst1" .float64))).runOn successor.plan).2 = p₁ := by rw [hwrite]
      decide +kernel
    obtain ⟨key, s, array, target, before, after, hlast, _, _, hsplit, hsame⟩ :=
      write_simultaneous (α := Int) (Progress.run_reachable 0 .default _) (p := successor.plan) (by decide +kernel)
        hwrite .refl hfinalize
    refine ⟨h', p₁, p₃, k, key, s, hwrite, hfinalize, hlast, by simp [hsplit], fun parameters m m' => ?_⟩
    exact hsame parameters m (.inl (by decide +kernel)) m'
  · obtain ⟨h', p₁, hwrite⟩ := exists_ok_of_isOk (x := (Build.write (pairHandle "subst0" .int64) [.all]
      (.array (pairHandle "subst1" .int64))).runOn increment.plan) (by decide +kernel)
    obtain ⟨k, p₃, hfinalize, hchecked⟩ : ∃ k p₃,
        (Build.finalize [pairHandle "subst0" .int64] false).runOn p₁ = (.ok k, p₃) ∧
          lastPasses p₁ p₃ (fun s => k.foreseen .empty s pairMemory) = true := by
      refine exists_of_succeedsWith ?_
      obtain rfl : ((Build.write (pairHandle "subst0" .int64) [.all]
        (.array (pairHandle "subst1" .int64))).runOn increment.plan).2 = p₁ := by rw [hwrite]
      decide +kernel
    have hreach : increment.plan.Reachable increment.handles := Progress.run_reachable 0 .default _
    have hrefs : ∀ a ∈ (Operation.write (pairHandle "subst0" .int64) [.all]
        (.array (pairHandle "subst1" .int64))).refs, a ∈ increment.handles := by decide +kernel
    obtain ⟨key, s, array, target, before, after, hlast, _, _, hsplit, hsame⟩ :=
      write_simultaneous (α := Int) hreach (fun a ha _ => hrefs a ha) hwrite .refl hfinalize
    obtain ⟨key', s', hlast', hforeseen⟩ := exists_last hchecked
    obtain ⟨rfl, rfl⟩ := Prod.mk.inj (Option.some.inj (hlast.symm.trans hlast'))
    have hp₁ := wellFormed_of_write hreach hrefs hwrite
    obtain ⟨os, hlowers⟩ := finalize_lowers hp₁ hfinalize
    have hundisturbed := Kernel.undisturbed_of_foreseen (hlowers.layered hp₁) hforeseen
    exact ⟨h', p₁, p₃, k, key, s, by decide +kernel, hwrite, hfinalize, hlast, by simp [hsplit], hundisturbed,
      hsame .empty pairMemory (.inr hundisturbed)⟩

def backwards : Progress :=
  (Progress.start (.empty 0 .default)).run
    [.input (.extents [.fixed 2]) .int64, .range (.fixed 2), .combineFrom .sub (.int 1) 1]

def sameAtOnce (k : Kernel) (m : Memory Int) (s : Statement) : Bool :=
  (k.executeStatement .empty m s).toOption.map k.contents = (k.executeAtOnce .empty m s).toOption.map k.contents

/-- An input that is written into itself backwards is not assigned simultaneously. -/
theorem backwards_not_simultaneous :
    ∃ (handles : List Handle) (h' : Handle) (p₁ p₃ : Plan) (k : Kernel) (key : Nat) (s : Statement),
      backwards.plan.Reachable handles ∧
      (∀ a ∈ [pairHandle "subst0" .int64, pairHandle "subst2" .int64], a ∈ handles) ∧
      (Build.write (pairHandle "subst0" .int64) [.gather (pairHandle "subst2" .int64)]
        (.array (pairHandle "subst0" .int64))).runOn backwards.plan = (.ok h', p₁) ∧
      (Build.finalize [pairHandle "subst0" .int64] false).runOn p₁ = (.ok k, p₃) ∧
      p₁.pending.getLast? = some (key, s) ∧ s.loadBacked p₃.backing key ∈ k.statements ∧
      ¬ ∀ (parameters : Env) (m m' : Memory Int),
        k.executeStatement parameters m (s.loadBacked p₃.backing key) = .ok m' ↔
          k.executeAtOnce parameters m (s.loadBacked p₃.backing key) = .ok m' := by
  obtain ⟨h', p₁, hwrite⟩ := exists_ok_of_isOk (x := (Build.write (pairHandle "subst0" .int64)
    [.gather (pairHandle "subst2" .int64)] (.array (pairHandle "subst0" .int64))).runOn backwards.plan)
    (by decide +kernel)
  obtain ⟨k, p₃, hfinalize, hdiffers⟩ : ∃ k p₃,
      (Build.finalize [pairHandle "subst0" .int64] false).runOn p₁ = (.ok k, p₃) ∧
        lastPasses p₁ p₃ (fun s => !sameAtOnce k pairMemory s) = true := by
    refine exists_of_succeedsWith ?_
    obtain rfl : ((Build.write (pairHandle "subst0" .int64) [.gather (pairHandle "subst2" .int64)]
      (.array (pairHandle "subst0" .int64))).runOn backwards.plan).2 = p₁ := by rw [hwrite]
    decide +kernel
  obtain ⟨key, s, hlast, hdiffers⟩ := exists_last hdiffers
  simp only [sameAtOnce, Bool.not_eq_true', decide_eq_false_iff_not] at hdiffers
  have hreach : backwards.plan.Reachable backwards.handles := Progress.run_reachable 0 .default _
  have hhandles : ∀ a ∈ [pairHandle "subst0" .int64, pairHandle "subst2" .int64], a ∈ backwards.handles := by
    decide +kernel
  have hp₁ := wellFormed_of_write hreach (fun a ha => hhandles a (by
    simpa [Operation.refs, Index.refs, Operand.refs, or_comm] using ha)) hwrite
  refine ⟨backwards.handles, h', p₁, p₃, k, key, s, hreach, hhandles, hwrite, hfinalize, hlast,
    loadBacked_mem_statements hp₁ hfinalize hlast, fun hall => hdiffers ?_⟩
  refine congrArg (Option.map k.contents) (Option.ext fun m' => ?_)
  rw [toOption_eq_some, toOption_eq_some]
  exact hall .empty _ m'

end Plan

end ArrayPlan
