import ArrayPlan.Proofs.Additions
import ArrayPlan.Proofs.Script
import ArrayPlan.Proofs.Writing

/-!
Scripts as computations on tensors. Each result of a script has a tensor, found from the tensors of the operands;
what writes store is kept in order. An operation of a script has on an accounted plan the effect that its meaning on
tensors has.
-/

namespace ArrayPlan

variable {α : Type} [Scalar α]

def Plan.source (p : Plan) (data : String → Array α) (h : Handle) : Array α :=
  ((p.backing.array? h.rule).map data).getD #[]

def Operation.updates? (find : Nat → Option (Tensor α)) : Operation Nat → Option (List (List Int × α))
  | .write a index value => writeUpdates? find a index value
  | _ => none

def Operation.isWrite {ref : Type} : Operation ref → Bool
  | .write .. => true
  | _ => false

/-- The tensors of the results so far, and what each write stored. -/
structure Meaning (α : Type) where
  tensors : List (Option (Tensor α))
  updates : List (List (List Int × α))

namespace Meaning

def find (m : Meaning α) (place : Nat) : Option (Tensor α) :=
  m.tensors[place]?.join

def step (elementType : ElementType) (data : Nat → Array α) (m : Meaning α) (op : Operation Nat × Bool) :
    Meaning α :=
  if op.2 then
    ⟨m.tensors ++ [op.1.tensor? m.find elementType (data m.tensors.length)],
      m.updates ++ (op.1.updates? m.find).toList⟩
  else ⟨m.tensors ++ [none], m.updates⟩

/-- What operations stand for, told which of them were accepted. -/
def ofScript (elementType : ElementType) (data : Nat → Array α) (ops : List (Operation Nat)) (accepted : List Bool) :
    Meaning α :=
  (ops.zip accepted).foldl (step elementType data) ⟨[], []⟩

end Meaning

def Progress.source (s : Progress) (data : String → Array α) (place : Nat) : Array α :=
  match s.find place with
  | .ok h => s.plan.source data h
  | .error _ => #[]

/-- Operations that read a result: the operation itself, and those that work on one that reads it. -/
inductive Reads (ops : List (Operation Nat)) (h : Nat) : Nat → Prop where
  | self : Reads ops h h
  | ref {place r : Nat} {op : Operation Nat} (hop : ops[place]? = some op) (hr : r ∈ op.refs) (hreads : Reads ops h r) :
      Reads ops h place

/-- The result and those of the writes through it. -/
inductive Lineage (ops : List (Operation Nat)) (h : Nat) : Nat → Prop where
  | self : Lineage ops h h
  | write {place a : Nat} {index : List (Index Nat)} {value : Operand Nat}
      (hop : ops[place]? = some (.write a index value)) (ha : Lineage ops h a) : Lineage ops h place

theorem Lineage.reads {ops : List (Operation Nat)} {h place : Nat} (hl : Lineage ops h place) : Reads ops h place := by
  induction hl with
  | self => exact .self
  | write hop _ ih => exact .ref hop List.mem_cons_self ih

section Resolving

variable {ref ε : Type} {find : ref → Except ε Handle}

theorem Operand.Resolves.found {b : Operand ref} {b' : Operand Handle} (h : b.Resolves find b') :
    ∀ r ∈ b.refs, ∃ a, find r = .ok a := by
  intro r hr
  cases h with
  | literal => cases hr
  | array ha => exact ⟨_, List.mem_singleton.1 hr ▸ ha⟩

theorem Index.Resolves.found {index : List (Index ref)} {index' : List (Index Handle)}
    (h : List.Forall₂ (Index.Resolves find) index index') : ∀ r ∈ index.flatMap Index.refs, ∃ a, find r = .ok a := by
  induction h with
  | nil => simp
  | cons hentry _ ih =>
    intro r hr
    rw [List.flatMap_cons] at hr
    rcases List.mem_append.1 hr with hr | hr
    · cases hentry with
      | gather ha => exact ⟨_, List.mem_singleton.1 hr ▸ ha⟩
      | _ => cases hr
    · exact ih r hr

theorem found_of_resolve {op : Operation ref} {op' : Operation Handle} (h : op.resolve find = .ok op') :
    ∀ r ∈ op.refs, ∃ a, find r = .ok a := by
  intro r hr
  cases Operation.resolve_eq_ok_iff.1 h with
  | full | fill | range | input | inputNamed => cases hr
  | combine _ ha hb =>
    rcases List.mem_cons.1 hr with rfl | hr
    · exact ⟨_, ha⟩
    · exact hb.found r hr
  | combineFrom _ _ ha | reshape ha | sum ha | prefixSums ha => exact ⟨_, List.mem_singleton.1 hr ▸ ha⟩
  | select ha hindex =>
    rcases List.mem_cons.1 hr with rfl | hr
    · exact ⟨_, ha⟩
    · exact Index.Resolves.found hindex r hr
  | write ha hindex hvalue =>
    rcases List.mem_cons.1 hr with rfl | hr
    · exact ⟨_, ha⟩
    · rcases List.mem_append.1 hr with hr | hr
      · exact Index.Resolves.found hindex r hr
      · exact hvalue.found r hr

theorem not_gather_resolve {index : List (Index ref)} {index' : List (Index Handle)}
    (h : List.Forall₂ (Index.Resolves find) index index') (hplain : ∀ r, Index.gather r ∉ index) :
    ∀ a, Index.gather a ∉ index' := by
  induction h with
  | nil => simp
  | cons hentry _ ih =>
    intro a ha
    rcases List.mem_cons.1 ha with rfl | ha
    · cases hentry
      exact hplain _ List.mem_cons_self
    · exact ih (fun r hr => hplain r (List.mem_cons_of_mem _ hr)) a ha

theorem selected_resolve {index : List (Index ref)} {index' : List (Index Handle)}
    (h : List.Forall₂ (Index.Resolves find) index index') :
    (∀ lengths, Tensor.selectedLengths index lengths = Tensor.selectedLengths index' lengths) ∧
      ∀ position, Tensor.selectedIndex index position = Tensor.selectedIndex index' position := by
  induction h with
  | nil => exact ⟨fun _ => rfl, fun _ => rfl⟩
  | cons hentry _ ih =>
    obtain ⟨hlengths, hindex⟩ := ih
    constructor
    · intro lengths
      cases lengths with
      | nil => cases hentry <;> rfl
      | cons n lengths =>
        cases hentry with
        | «at» => exact hlengths lengths
        | all | slice | gather => exact congrArg (n :: ·) (hlengths lengths)
    · intro position
      cases hentry with
      | «at» i => exact congrArg ((i : Int) :: ·) (hindex position)
      | all | slice | gather =>
        cases position with
        | nil => rfl
        | cons i position => exact congrArg (i :: ·) (hindex position)

end Resolving

def Plan.Finds (p : Plan) (account : Account α) (find : Nat → Except Unit Handle) (tensors : Nat → Option (Tensor α)) :
    Prop :=
  ∀ place a, find place = .ok a →
    ∃ t, tensors place = some t ∧ p.Accounts account a t ∧ (elementCount t.lengths : Int) ≤ indexBound

section Performing

variable [ExactIndices α] {p p' : Plan} {account : Account α} {data : String → Array α} {h : Handle}
  {find : Nat → Except Unit Handle} {tensors : Nat → Option (Tensor α)}

omit [Scalar α] [ExactIndices α] in
theorem lengths?_of_resolve (hfinds : p.Finds account find tensors) {shape : ShapeSource Nat} {extents : List Extent}
    (hresolve : shape.resolve find = .ok extents) : shape.lengths? tensors = extents.mapM Extent.length? := by
  cases shape with
  | extents axes =>
    cases hresolve
    rfl
  | like r =>
    obtain ⟨a, ha, rfl⟩ := map_eq_ok hresolve
    obtain ⟨t, ht, haccounts, _⟩ := hfinds r a ha
    rw [ShapeSource.lengths?, ht]
    exact haccounts.describes.lengths.symm

omit [ExactIndices α] in
theorem Plan.Inputs.exists_adds {array : String} {extents : List Extent} {s : Shape} {elementType : ElementType}
    {vars : List String} (hp : p.WellFormed) (hacc : p.Accounted account data) (hs : Shape.ofExtents extents = .ok s)
    (hi : p.Inputs array s elementType vars h p') {lengths : List Nat} (hlengths : h.shape.lengths? = some lengths)
    {d : Array α} (hd : ∀ array, p'.backing.array? h.rule = some array → d = data array) :
    extents.mapM Extent.length? = some lengths ∧ p.Adds account data h p' (.ofData lengths elementType d) True := by
  rw [hi.handle] at hlengths
  obtain ⟨hadds, hbacked⟩ := hi.adds hp hacc hlengths
  rw [← hd array hbacked] at hadds
  refine ⟨?_, hadds⟩
  rw [← Shape.extents_of_ofExtents hs]
  exact hlengths

theorem exists_adds (hp : p.WellFormed) (hacc : p.Accounted account data) (hfinds : p.Finds account find tensors)
    {op : Operation Nat} {op' : Operation Handle} (hop : op.isWrite = false) (hresolve : op.resolve find = .ok op')
    (hrun : op'.perform.runOn p = (.ok h, p')) {lengths : List Nat} (hlengths : h.shape.lengths? = some lengths)
    (hbound : (elementCount lengths : Int) ≤ indexBound) {d : Array α}
    (hd : ∀ array, p'.backing.array? h.rule = some array → d = data array) :
    ∃ t, op.tensor? tensors p.settings.elementType d = some t ∧
      p.Adds account data h p' t (∀ r ∈ op.refs, ∀ a t, find r = .ok a → tensors r = some t → account.Knows a t) := by
  have hboundh : ∀ lengths', h.shape.lengths? = some lengths' → (elementCount lengths' : Int) ≤ indexBound := by
    intro lengths' hlengths'
    obtain rfl := Option.some.inj (hlengths.symm.trans hlengths')
    exact hbound
  cases Operation.resolve_eq_ok_iff.1 hresolve with
  | full hextents value elementType =>
    obtain ⟨hsame, hadds⟩ := adds_full hp hacc hrun hlengths
    refine ⟨_, ?_, hadds.mono fun _ => trivial⟩
    rw [Operation.tensor?, lengths?_of_resolve hfinds hextents]
    exact congrArg (· >>= _) hsame
  | fill hextents value =>
    rw [Operation.perform, Build.runOn_fill] at hrun
    obtain ⟨hsame, hadds⟩ := adds_full hp hacc hrun hlengths
    refine ⟨_, ?_, hadds.mono fun _ => trivial⟩
    rw [Operation.tensor?, lengths?_of_resolve hfinds hextents]
    exact congrArg (· >>= _) hsame
  | range stop =>
    obtain ⟨n, rfl, hadds⟩ := adds_range hp hacc hrun hlengths
    exact ⟨_, rfl, hadds.mono fun _ => trivial⟩
  | @input _ extents hextents elementType =>
    obtain ⟨s, array, vars, hs, hinputs⟩ := (Build.Outcome.input hp extents elementType).of_runOn_ok hrun
    obtain ⟨hsame, hadds⟩ := hinputs.exists_adds hp hacc hs hlengths hd
    refine ⟨_, ?_, hadds.mono fun _ => trivial⟩
    rw [Operation.tensor?, lengths?_of_resolve hfinds hextents]
    exact congrArg (· >>= _) hsame
  | @inputNamed _ extents name hextents elementType =>
    obtain ⟨s, vars, hs, hinputs⟩ := (Build.Outcome.inputNamed hp name extents elementType).of_runOn_ok hrun
    obtain ⟨hsame, hadds⟩ := hinputs.exists_adds hp hacc hs hlengths hd
    refine ⟨_, ?_, hadds.mono fun _ => trivial⟩
    rw [Operation.tensor?, lengths?_of_resolve hfinds hextents]
    exact congrArg (· >>= _) hsame
  | @combine op a a' b _ ha hb =>
    obtain ⟨ta, hta, haccounts, hba⟩ := hfinds a a' ha
    cases hb with
    | literal value =>
      have hadds := adds_combineLiteral op value false hp hacc haccounts hba hrun
      refine ⟨_, ?_, hadds.mono fun hknown => hknown a List.mem_cons_self a' ta ha hta⟩
      rw [Operation.tensor?, hta]
      rfl
    | @array r b' hr =>
      obtain ⟨tb, htb, haccounts', hbb⟩ := hfinds r b' hr
      have hadds := adds_combine op hp hacc haccounts haccounts' hba hbb hboundh hrun
      refine ⟨_, ?_, hadds.mono fun hknown => ⟨hknown a List.mem_cons_self a' ta ha hta, ?_⟩⟩
      · rw [Operation.tensor?, hta, htb]
        rfl
      · exact hknown r (by simp [Operation.refs, Operand.refs]) b' tb hr htb
  | @combineFrom op value a a' ha =>
    obtain ⟨ta, hta, haccounts, hba⟩ := hfinds a a' ha
    have hadds := adds_combineLiteral op value true hp hacc haccounts hba hrun
    refine ⟨_, ?_, hadds.mono fun hknown => hknown a List.mem_cons_self a' ta ha hta⟩
    rw [Operation.tensor?, hta]
    rfl
  | @select a a' index index' ha hindex =>
    obtain ⟨ta, hta, haccounts, hba⟩ := hfinds a a' ha
    obtain ⟨hsame, hselected⟩ := selected_resolve hindex
    have hadds := adds_select hp hacc haccounts hba hrun
    have hselect : ta.select index = ta.select index' := by
      simp only [Tensor.select, hsame, hselected]
    refine ⟨_, ?_, hadds.mono fun hknown => hknown a List.mem_cons_self a' ta ha hta⟩
    rw [Operation.tensor?, hta, ← hselect]
    rfl
  | @reshape a a' shape extents ha hextents layout =>
    obtain ⟨ta, hta, haccounts, hba⟩ := hfinds a a' ha
    obtain ⟨lengths', hsame, hadds⟩ := adds_reshape hp hacc haccounts hba hrun
    refine ⟨_, ?_, hadds.mono fun hknown => hknown a List.mem_cons_self a' ta ha hta⟩
    rw [Operation.tensor?, hta, lengths?_of_resolve hfinds hextents]
    exact congrArg (· >>= _) hsame
  | @sum a a' ha axes =>
    obtain ⟨ta, hta, haccounts, hba⟩ := hfinds a a' ha
    have hadds := adds_sum hp hacc haccounts hba hrun
    refine ⟨_, ?_, hadds.mono fun hknown => hknown a List.mem_cons_self a' ta ha hta⟩
    rw [Operation.tensor?, hta]
    rfl
  | @prefixSums a a' ha =>
    obtain ⟨ta, hta, haccounts, hba⟩ := hfinds a a' ha
    have hadds := adds_prefixSums hp hacc haccounts hba hrun
    refine ⟨_, ?_, hadds.mono fun hknown => hknown a List.mem_cons_self a' ta ha hta⟩
    rw [Operation.tensor?, hta]
    rfl
  | write => cases hop

omit [Scalar α] [ExactIndices α] in
theorem exists_entries (hfinds : p.Finds account find tensors) {index : List (Index Nat)} {index' : List (Index Handle)}
    (hresolve : List.Forall₂ (Index.Resolves find) index index')
    (hknown : ∀ r ∈ index.flatMap Index.refs, ∀ a t, find r = .ok a → tensors r = some t → account.Knows a t) :
    ∃ entries, index.mapM (Index.mapRef? tensors) = some entries ∧
      List.Forall₂ (Index.Stands p account) index' entries := by
  refine exists_mapM_eq_pure (m := Option) hresolve fun entry hmem entry' hentry => ?_
  cases hentry with
  | «at» position => exact ⟨_, rfl, .at position⟩
  | all => exact ⟨_, rfl, .all⟩
  | slice start stop step => exact ⟨_, rfl, .slice start stop step⟩
  | @gather r a ha =>
    obtain ⟨t, ht, haccounts, hbound⟩ := hfinds r a ha
    have hknows := hknown r (List.mem_flatMap.2 ⟨_, hmem, List.mem_cons_self⟩) a t ha ht
    exact ⟨.gather t, by rw [Index.mapRef?, ht]; rfl, .gather ⟨haccounts, hknows, hbound⟩⟩

omit [Scalar α] [ExactIndices α] in
theorem exists_operand (hfinds : p.Finds account find tensors) {value : Operand Nat} {value' : Operand Handle}
    (hresolve : value.Resolves find value')
    (hknown : ∀ r ∈ value.refs, ∀ a t, find r = .ok a → tensors r = some t → account.Knows a t) :
    ∃ u, value.mapRef? tensors = some u ∧ Operand.Stands p account value' u := by
  cases hresolve with
  | literal x => exact ⟨_, rfl, .literal x⟩
  | @array r a ha =>
    obtain ⟨t, ht, haccounts, hbound⟩ := hfinds r a ha
    have hknows := hknown r List.mem_cons_self a t ha ht
    exact ⟨.array t, by rw [Operand.mapRef?, ht]; rfl, .array ⟨haccounts, hknows, hbound⟩⟩

omit [Scalar α] [ExactIndices α] in
theorem exists_writes (hp : p.WellFormed) (hlive : ∀ place c, find place = .ok c → p.Live c) {a : Nat}
    {index : List (Index Nat)} {value : Operand Nat} {op' : Operation Handle}
    (hresolve : (Operation.write a index value).resolve find = .ok op') (hrun : op'.perform.runOn p = (.ok h, p')) :
    ∃ b index' value', find a = .ok b ∧ List.Forall₂ (Index.Resolves find) index index' ∧
      value.Resolves find value' ∧ p.Writes b index' value' h p' := by
  have hrefs : ∀ c ∈ op'.refs, p.Live c := by
    intro c hc
    obtain ⟨r, hr⟩ := refs_resolve hresolve hc
    exact hlive r c hr
  cases Operation.resolve_eq_ok_iff.1 hresolve with
  | @write _ b _ index' _ value' hb hindex hvalue =>
    exact ⟨b, index', value', hb, hindex, hvalue, (Plan.write_outcome hp fun c hc _ => hrefs c hc).of_runOn_ok hrun⟩

omit [ExactIndices α] in
theorem exists_write (hp : p.WellFormed) (hfinds : p.Finds account find tensors) {a : Nat} {index : List (Index Nat)}
    {value : Operand Nat} {op' : Operation Handle}
    (hresolve : (Operation.write a index value).resolve find = .ok op') (hrun : op'.perform.runOn p = (.ok h, p'))
    (hknown : ∀ r ∈ index.flatMap Index.refs ++ value.refs, ∀ a t, find r = .ok a → tensors r = some t →
      account.Knows a t) :
    ∃ b index' value' t entries u, find a = .ok b ∧ tensors a = some t ∧
      writeUpdates? tensors a index value = some (t.updates entries u) ∧
        List.Forall₂ (Index.Stands p account) index' entries ∧ Operand.Stands p account value' u ∧
          p.Writes b index' value' h p' := by
  have hlive : ∀ place c, find place = .ok c → p.Live c := fun place c hc => by
    obtain ⟨_, _, haccounts, _⟩ := hfinds place c hc
    exact haccounts.live
  obtain ⟨b, index', value', hb, hindices, hvalue, hwrites⟩ := exists_writes hp hlive hresolve hrun
  obtain ⟨t, ht, _⟩ := hfinds a b hb
  obtain ⟨entries, hentries, hgathers⟩ := exists_entries hfinds hindices fun r hr => hknown r (List.mem_append_left _ hr)
  obtain ⟨u, hu, hstored⟩ := exists_operand hfinds hvalue fun r hr => hknown r (List.mem_append_right _ hr)
  refine ⟨b, index', value', t, entries, u, hb, ht, ?_, hgathers, hstored, hwrites⟩
  rw [writeUpdates?, ht, hentries, hu]
  rfl

end Performing

end ArrayPlan
