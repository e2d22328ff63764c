import ArrayPlan.Proofs.Explanations
import ArrayPlan.Proofs.Runs

/-!
Lowering preserves meaning. A script is carried out on an empty plan, the plan is lowered for some of the results,
and the kernel is executed on data for the inputs. The arrays of the requested results then hold the elements of the
tensors that the script stands for.
-/

namespace ArrayPlan

variable {α : Type}

def boundData (inputs : List (String × Array α)) (array : String) : Array α :=
  (inputs.reverse.lookup array).getD #[]

/-- Data is bound to declared inputs only, and has the declared size. -/
def Plan.Admits (p : Plan) (inputs : List (String × Array α)) : Prop :=
  ∀ i ∈ inputs, ∃ d ∈ p.arrays, d.name = i.1 ∧ d.role = .input ∧ d.shape.size? = some i.2.size

section Beginning

namespace Memory

theorem lookup_assign (array : String) (b : Buffer α) (buffers : List (String × Buffer α)) (other : String) :
    (assign array b buffers).lookup other = if other = array then some b else buffers.lookup other := by
  induction buffers with
  | nil =>
    by_cases hother : other = array
    · simp [assign, hother]
    · have hne : (other == array) = false := by simpa using hother
      simp [assign, List.lookup_cons, hother, hne]
  | cons entry rest ih =>
    obtain ⟨name, old⟩ := entry
    rw [assign]
    by_cases hname : name = array
    · rw [if_pos hname, hname, List.lookup_cons, List.lookup_cons]
      by_cases hother : other = array
      · simp [hother]
      · have hne : (other == array) = false := by simpa using hother
        simp [hother, hne]
    · rw [if_neg hname, List.lookup_cons, List.lookup_cons, ih]
      by_cases hother : other = name
      · simp [hother, hname]
      · have hne : (other == name) = false := by simpa using hother
        simp [hne]

theorem buffer?_set (m : Memory α) (array : String) (b : Buffer α) (other : String) :
    (m.set array b).buffer? other = if other = array then some b else m.buffer? other :=
  lookup_assign array b m.buffers other

theorem buffer?_ofInputs (inputs : List (String × Array α)) (array : String) :
    (ofInputs inputs).buffer? array = (inputs.reverse.lookup array).map Buffer.ofArray := by
  induction inputs using List.reverseRecOn with
  | nil => rfl
  | append_singleton inputs i ih =>
    have hstep : ofInputs (inputs ++ [i]) = (ofInputs inputs).set i.1 (Buffer.ofArray i.2) := List.foldl_append
    rw [hstep, buffer?_set, ih, List.reverse_append, List.reverse_singleton, List.singleton_append, List.lookup_cons]
    by_cases harray : array = i.1
    · simp [harray]
    · have hne : (array == i.1) = false := by simpa using harray
      simp [harray, hne]

def declared (m : Memory α) (array : String) (lengths : List Nat) : Buffer α :=
  match m.buffer? array with
  | some b => { b with lengths }
  | none => Buffer.zeros lengths

theorem declared_ofInputs (inputs : List (String × Array α)) (array : String) (lengths : List Nat) :
    (ofInputs inputs).declared array lengths = ⟨lengths, boundData inputs array, ∅⟩ := by
  rw [declared, buffer?_ofInputs, boundData]
  cases inputs.reverse.lookup array <;> rfl

theorem declare_eq (m : Memory α) {d : Declaration} {lengths : List Nat} (hlengths : d.shape.lengths? = some lengths)
    (hsize : ∀ b, m.buffer? d.name = some b → b.size = elementCount lengths) :
    m.declare .empty d = .ok (m.set d.name (m.declared d.name lengths)) := by
  have hfixed : d.shape.extents.mapM (Extent.lengthIn .empty) = .ok lengths := by
    rw [Shape.lengths?_eq_some.1 hlengths]
    clear hsize hlengths
    induction lengths with
    | nil => rfl
    | cons n lengths ih =>
      rw [List.map_cons, List.mapM_cons, ih]
      rfl
  rw [declare, hfixed, declared]
  cases hb : m.buffer? d.name with
  | none => rfl
  | some b => exact if_pos (hsize b hb)

theorem exists_declared {arrays : List Declaration} (m : Memory α) (hnodup : (arrayNames arrays).Nodup)
    (hfixed : ∀ d ∈ arrays, ∃ lengths, d.shape.lengths? = some lengths ∧
      ∀ b, m.buffer? d.name = some b → b.size = elementCount lengths) :
    ∃ m', arrays.foldlM (declare .empty) m = .ok m' ∧
      (∀ d ∈ arrays, ∃ lengths, d.shape.lengths? = some lengths ∧
        m'.buffer? d.name = some (m.declared d.name lengths)) ∧
      ∀ array, array ∉ arrayNames arrays → m'.buffer? array = m.buffer? array := by
  induction arrays generalizing m with
  | nil => exact ⟨m, rfl, by simp, fun _ _ => rfl⟩
  | cons d arrays ih =>
    obtain ⟨hnew, hnodup⟩ := List.nodup_cons.1 hnodup
    obtain ⟨lengths, hlengths, hsize⟩ := hfixed d List.mem_cons_self
    have hsame : ∀ e ∈ arrays, (m.set d.name (m.declared d.name lengths)).buffer? e.name = m.buffer? e.name := by
      intro e he
      have hne : e.name ≠ d.name := fun heq => hnew (heq ▸ List.mem_map_of_mem he)
      rw [buffer?_set, if_neg hne]
    obtain ⟨m', hm', hrest, hothers⟩ := ih (m.set d.name (m.declared d.name lengths)) hnodup fun e he => by
      rw [hsame e he]
      exact hfixed e (List.mem_cons_of_mem d he)
    refine ⟨m', ?_, fun e he => ?_, fun array harray => ?_⟩
    · rw [List.foldlM_cons, declare_eq m hlengths hsize]
      exact hm'
    · rcases List.mem_cons.1 he with rfl | he
      · exact ⟨lengths, hlengths, by rw [hothers _ hnew, buffer?_set, if_pos rfl]⟩
      · obtain ⟨lengths', hlengths', hb⟩ := hrest e he
        refine ⟨lengths', hlengths', ?_⟩
        rw [hb, declared, hsame e he, declared]
    · obtain ⟨hne, hnone⟩ := not_or.1 (mt List.mem_cons.2 harray)
      rw [hothers array hnone, buffer?_set, if_neg hne]

end Memory

theorem Buffer.read_bound [Scalar α] (data : Array α) {index : List Int} {lengths : List Nat}
    (h : InBox index lengths) :
    (Buffer.mk lengths data ∅).read index = .ok (data.getD (Layout.rowMajor.place lengths index) Scalar.zero) := by
  rw [read, offset, if_pos h.length_eq, offsetFrom?_eq_place h, Nat.zero_mul, Nat.zero_add]
  simp [Except.map, element]

variable [Scalar α]

theorem Plan.Prepared.exists_start [ExactIndices α] {p p' : Plan} {outputs : List Handle} {os : List Realization}
    {k : Kernel} {account : Account α} {inputs : List (String × Array α)}
    (h : p.Prepared account (boundData inputs) outputs os k p') (hadmits : p.Admits inputs) :
    ∃ m, k.arrays.foldlM (Memory.declare .empty) (Memory.ofInputs inputs) = .ok m ∧
      k.Stage p'.backing account (agenda p.pending os (p.rules.size + 1)) m ∧
      ∀ d ∈ k.arrays, ∀ lengths, d.shape.lengths? = some lengths → ∀ index, InBox index lengths →
        m.load? d.name index = some (inputElement (boundData inputs) d lengths index) := by
  have hnodup := h.lowers.arrays_nodup h.wellFormed
  have hsize : ∀ d ∈ k.arrays, ∃ lengths, d.shape.lengths? = some lengths ∧
      ∀ b, (Memory.ofInputs inputs).buffer? d.name = some b → b.size = elementCount lengths := by
    intro d hd
    obtain ⟨lengths, hlengths⟩ := h.exists_lengths hd
    refine ⟨lengths, hlengths, fun b hb => ?_⟩
    rw [Memory.buffer?_ofInputs] at hb
    obtain ⟨data, hlookup, rfl⟩ := Option.map_eq_some_iff.1 hb
    obtain ⟨before, after, hsplit, _⟩ := List.lookup_eq_some_iff.1 hlookup
    have hmem : (d.name, data) ∈ inputs := List.mem_reverse.1 (hsplit ▸ List.mem_append_right before List.mem_cons_self)
    obtain ⟨d', hd', hname, _, hcount⟩ := hadmits _ hmem
    obtain rfl : d' = d := List.inj_on_of_nodup_map hnodup (h.lowers.arrays ▸ List.mem_append_left _ hd') hd hname
    rw [Shape.size?, hlengths] at hcount
    rw [Option.some.inj hcount]
    exact Nat.mul_one data.size
  obtain ⟨m, hm, hdeclared, _⟩ := Memory.exists_declared _ hnodup hsize
  have hload : ∀ d ∈ k.arrays, ∀ lengths, d.shape.lengths? = some lengths → ∀ index, InBox index lengths →
      m.load? d.name index = some (inputElement (boundData inputs) d lengths index) := by
    intro d hd lengths hlengths index hindex
    obtain ⟨lengths', hlengths', hb⟩ := hdeclared d hd
    obtain rfl := Option.some.inj (hlengths.symm.trans hlengths')
    rw [Memory.declared_ofInputs] at hb
    rw [Memory.load?_eq_of_buffer? hb, Buffer.read_bound _ hindex]
    rfl
  refine ⟨m, hm, ⟨fun d hd => ?_, fun entry hentry f hf hnone index hindex => ?_⟩, hload⟩
  · obtain ⟨lengths, hlengths, hb⟩ := hdeclared d hd
    exact ⟨_, hb, by rw [Memory.declared_ofInputs, hlengths]⟩
  · obtain ⟨d, hd, hname, hvalues⟩ := h.input_of_untargeted hentry hf hnone
    obtain ⟨d', hd', hname', hlengths'⟩ := h.exists_declaration hentry
    obtain rfl : d' = d := List.inj_on_of_nodup_map hnodup hd' hd (hname'.trans hname.symm)
    rw [← hname, hload d' hd _ hlengths' index hindex, hvalues index hindex]

end Beginning

namespace Build

variable {p p' : Plan} {outputs : List Handle}

theorem runOn_bind {β γ : Type} {step : Build β} {next : β → Build γ} {b : β} (h : step.runOn p = (.ok b, p')) :
    (step >>= next).runOn p = (next b).runOn p' := by
  simp only [runOn] at h
  simp only [runOn, ExceptT.run_bind, StateT.run_bind, h]
  rfl

theorem runOn_requireOwn {a : Handle} (h : a.plan = p.id) : (requireOwn a).runOn p = (.ok (), p) := by
  have hown : ¬ a.plan ≠ p.id := fun hne => hne h
  show (if a.plan ≠ p.id then throw (.foreignHandle a.rule) else Pure.pure () : Build Unit).runOn p = _
  rw [if_neg hown]
  rfl

theorem runOn_requireAllOwn (h : ∀ a ∈ outputs, a.plan = p.id) :
    (outputs.forM requireOwn).runOn p = (.ok ⟨⟩, p) := by
  induction outputs with
  | nil => rfl
  | cons a outputs ih =>
    have hcons : (a :: outputs).forM requireOwn = requireOwn a >>= fun _ => outputs.forM requireOwn := rfl
    rw [hcons, runOn_bind (runOn_requireOwn (h a List.mem_cons_self))]
    exact ih fun b hb => h b (List.mem_cons_of_mem a hb)

theorem exists_finalized (hp : p.WellFormed) (hopen : p.finalized = false) (hlive : ∀ a ∈ outputs, p.Live a)
    (withStores : Bool) : ∃ k p', (finalize outputs withStores).runOn p = (.ok k, p') := by
  have hmem : ∀ a ∈ outputs, a.rule ∈ ruleNames p.rules.rules := by
    intro a ha
    obtain ⟨r, hr, _⟩ := (hlive a ha).rule
    have hname : r.name = a.rule := by simpa using List.find?_some hr
    exact hname ▸ List.mem_map_of_mem (List.mem_of_find?_eq_some hr)
  have hregistered : outputs.find? (fun h => !p.rules.contains h.rule) = none :=
    List.find?_eq_none.2 fun a ha => by simp [Plan.contains_iff.2 (hmem a ha)]
  obtain ⟨bound, hbound⟩ := Plan.exists_bindings_lowered hp hmem
  have hget : (get : Build Plan).runOn p = (.ok p, p) := rfl
  have hrequire : requireOpen.runOn p = (.ok (), p) := by
    rw [requireOpen, runOn_bind hget, hopen]
    rfl
  rw [finalize, runOn_bind (runOn_requireAllOwn fun a ha => (hlive a ha).own), runOn_bind hrequire, runOn_bind hget,
    hregistered]
  dsimp only
  rw [hbound]
  exact ⟨_, _, rfl⟩

end Build

section Executing

variable [Scalar α] [ExactIndices α] {p p' : Plan} {outputs : List Handle} {os : List Realization} {k : Kernel}
  {account : Account α} {inputs : List (String × Array α)} {a : Handle} {t : Tensor α} {m : Memory α}

theorem Plan.Prepared.exists_execution (h : p.Prepared account (boundData inputs) outputs os k p')
    (hadmits : p.Admits inputs) (Inv : List (Nat × Statement) → Memory α → Prop)
    (hinv : ∀ e rest m m', k.Stage p'.backing account (e :: rest) m → k.Carries p'.backing account e m m' →
      Inv (e :: rest) m → Inv rest m')
    (hstart : ∀ m : Memory α, (∀ d ∈ k.arrays, ∀ lengths, d.shape.lengths? = some lengths → ∀ index,
      InBox index lengths → m.load? d.name index = some (inputElement (boundData inputs) d lengths index)) →
        Inv (agenda p.pending os (p.rules.size + 1)) m) :
    ∃ m, k.execute .empty inputs = .ok m ∧ k.Stage p'.backing account [] m ∧ Inv [] m := by
  obtain ⟨m, hm, hstage, hload⟩ := h.exists_start hadmits
  obtain ⟨m', hrun, hend⟩ := h.exists_run hinv (List.nil_append _).symm hstage (hstart m hload)
  refine ⟨m', ?_, hend⟩
  rw [Kernel.execute, hm, h.lowers.statements]
  exact hrun

end Executing

section Meaning

variable [Scalar α] [ExactIndices α]

theorem Progress.isOpen (id : Nat) (settings : Settings) (ops : List (Operation Nat)) :
    ((start (.empty id settings)).run ops).plan.finalized = false :=
  (run_extends (start_reachable id settings) ops).finalized

omit [ExactIndices α] in
theorem Plan.Accounted.exists_prepared {p : Plan} {account : Account α} {data : String → Array α}
    {outputs : List Handle} (hacc : p.Accounted account data) (hp : p.WellFormed) (hopen : p.finalized = false)
    (hrequested : ∀ a ∈ outputs, ∃ t, p.Accounts account a t ∧ (elementCount t.lengths : Int) ≤ indexBound)
    (withStores : Bool) : ∃ k p' os, (Build.finalize outputs withStores).runOn p = (.ok k, p') ∧
      p.Prepared account data outputs os k p' := by
  have hlive : ∀ a ∈ outputs, p.Live a := fun a ha => by
    obtain ⟨_, haccounts, _⟩ := hrequested a ha
    exact haccounts.live
  obtain ⟨k, p', hfinalize⟩ := Build.exists_finalized hp hopen hlive withStores
  obtain ⟨os, hlowers⟩ := Plan.finalize_lowers hp hfinalize
  exact ⟨k, p', os, hfinalize, hp, hacc, hlowers, hrequested⟩

omit [ExactIndices α] in
theorem Explained.exists_prepared {ops : List (Operation Nat)} {h : Nat} {data : String → Array α} {s : Progress}
    {m : Meaning α} {account : Account α} {outputs : List Handle} (he : Explained ops h data s m account)
    (hopen : s.plan.finalized = false) (hsized : s.Sized) (houtputs : ∀ a ∈ outputs, ∃ place, s.find place = .ok a)
    (withStores : Bool) : ∃ k p' os, (Build.finalize outputs withStores).runOn s.plan = (.ok k, p') ∧
      s.plan.Prepared account data outputs os k p' := by
  refine he.accounted.exists_prepared he.wellFormed hopen (fun a ha => ?_) withStores
  obtain ⟨place, hplace⟩ := houtputs a ha
  obtain ⟨t, _, haccounts, hbound⟩ := he.finds hsized place a hplace
  exact ⟨t, haccounts, hbound⟩

end Meaning

instance : ExactIndices Int where
  toIndex_ofInt _ _ _ := rfl
  add _ _ _ _ _ := rfl
  mul _ _ _ _ _ _ _ := rfl
  floorDiv m _ _ _ hn _ := Int.fdiv_eq_ediv_of_nonneg m (Int.le_of_lt hn)
  rem _ _ _ _ _ _ := rfl

instance (s : Progress) : Decidable s.Sized :=
  decidable_of_iff (∀ a ∈ s.handles, ∃ lengths ∈ a.shape.lengths?, (elementCount lengths : Int) ≤ indexBound) Iff.rfl

instance (p : Plan) (inputs : List (String × Array α)) : Decidable (p.Admits inputs) :=
  inferInstanceAs (Decidable (∀ i ∈ inputs, ∃ d ∈ p.arrays, d.name = i.1 ∧ d.role = .input ∧
    d.shape.size? = some i.2.size))

instance (m : Meaning α) (h : Nat) : Decidable (m.Inside h) :=
  inferInstanceAs (Decidable (∀ t ∈ m.find h, ∀ us ∈ m.updates, ∀ u ∈ us, InBox u.1 t.lengths))

theorem Progress.exists_find {s : Progress} {a : Handle} (ha : a ∈ s.handles) : ∃ place, s.find place = .ok a := by
  obtain ⟨r, hr, rfl⟩ := List.mem_filterMap.1 ha
  obtain ⟨place, hplace⟩ := List.mem_iff_getElem?.1 hr
  exact ⟨place, find_eq_ok.2 hplace⟩

section Writing

variable [Scalar α]

/-- What is still to be stored into the array leads to the given elements. -/
def Kernel.Follows (k : Kernel) (t : BackingTable) (account : Account α) (array : String) (lengths : List Nat)
    (goal : List Int → α) (todo : List (Nat × Statement)) (m : Memory α) : Prop :=
  ∃ us : List (List (List Int × α)),
    List.Forall₂ (fun e u => k.Promises t account e array (knownUpdates u)) (todo.filter fun e => e.2.targets array) us ∧
    (∀ u ∈ us, ∀ x ∈ u, InBox x.1 lengths) ∧
    ∃ g, (∀ index, InBox index lengths → m.load? array index = some (g index)) ∧
      ∀ index, InBox index lengths → us.foldl storeElements g index = goal index

theorem Kernel.Follows.step {k : Kernel} {t : BackingTable} {account : Account α} {array : String} {lengths : List Nat}
    {goal : List Int → α} {e : Nat × Statement} {rest : List (Nat × Statement)} {m m' : Memory α}
    (h : k.Follows t account array lengths goal (e :: rest) m) (hcarries : k.Carries t account e m m') :
    k.Follows t account array lengths goal rest m' := by
  obtain ⟨us, hpromises, hinside, g, hcontents, hgoal⟩ := h
  cases htargets : e.2.targets array with
  | false =>
    rw [List.filter_cons_of_neg (by simp [htargets])] at hpromises
    refine ⟨us, hpromises, hinside, g, fun index hindex => ?_, hgoal⟩
    rw [hcarries.others array htargets, hcontents index hindex]
  | true =>
    rw [List.filter_cons_of_pos (by simp [htargets])] at hpromises
    obtain ⟨u, us, hfirst, hrest, rfl⟩ := List.forall₂_cons_left_iff.1 hpromises
    have hstored := hcarries.stored array u hfirst fun x hx => by
      rw [hcontents _ (hinside u List.mem_cons_self x hx)]
      rfl
    exact ⟨us, hrest, fun v hv => hinside v (List.mem_cons_of_mem u hv), storeElements g u,
      fun index hindex => hstored g index (hcontents index hindex), hgoal⟩

variable [ExactIndices α] {p p' : Plan} {outputs : List Handle} {os : List Realization} {k : Kernel}
  {account : Account α} {inputs : List (String × Array α)} {a : Handle} {t : Tensor α}

end Writing

end ArrayPlan
