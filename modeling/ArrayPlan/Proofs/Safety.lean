import ArrayPlan.Proofs.Refinement

/-!
Safe execution. Where no array of positions is written through, the elements that a kernel reads and stores do not
depend on the data. A plan can then be accounted for with all values left open, and this is enough for its kernel to
be executed to the end.
-/

namespace ArrayPlan

/-- The operation does not write through arrays of positions. -/
def Operation.Direct {ref : Type} : Operation ref → Prop
  | .write _ index _ => ∀ a, Index.gather a ∉ index
  | _ => True

variable {α : Type} [Scalar α]

/-- The plan so far, with its results, is accounted for up to the values. -/
structure Outlined (data : String → Array α) (s : Progress) (account : Account α) : Prop where
  wellFormed : s.plan.WellFormed
  accounted : s.plan.Accounted account data
  opens : account.Open
  places : ∀ place a, s.find place = .ok a → ∃ t, s.plan.Accounts account a t

def Progress.outline (s : Progress) (place : Nat) : Option (Tensor α) :=
  (s.find place).toOption.bind fun a =>
    a.shape.lengths?.map fun lengths => ⟨lengths, a.elementType, a.layout, fun _ => Scalar.zero⟩

namespace Outlined

variable {data : String → Array α} {s : Progress} {account account' : Account α} {p' : Plan} {a b : Handle} {t : Tensor α}

theorem start (data : String → Array α) (id : Nat) (settings : Settings) :
    Outlined data (Progress.start (.empty id settings)) fun _ => ⟨[], none⟩ := by
  refine ⟨Plan.empty_wellFormed id settings, ?_, fun _ => rfl, fun place a hfind => ?_⟩
  · exact (Explained.start [] 0 data id settings).accounted
  · simp [Progress.find, Progress.start] at hfind

theorem next (ho : Outlined data s account) {r : Option Handle} (hext : s.plan.Extends p')
    (hagrees : account.AgreesOn account' s.plan.rules.rules) (hp' : p'.WellFormed) (hacc' : p'.Accounted account' data)
    (hopen' : account'.Open) (hnew : ∀ b, r = some b → ∃ t, p'.Accounts account' b t) :
    Outlined data ⟨s.results ++ [r], p'⟩ account' := by
  refine ⟨hp', hacc', hopen', fun place a hfind => ?_⟩
  rcases (s.find_append r p' place).1 hfind with hold | ⟨_, hr⟩
  · obtain ⟨t, haccounts⟩ := ho.places place a hold
    exact ⟨t, haccounts.extend hext hagrees⟩
  · exact hnew a hr

theorem bounded (ho : Outlined data s account) (hsized : s.Sized) {place : Nat} (hfind : s.find place = .ok a) :
    ∃ t, s.plan.Accounts account a t ∧ (elementCount t.lengths : Int) ≤ indexBound := by
  obtain ⟨t, haccounts⟩ := ho.places place a hfind
  obtain ⟨lengths, hlengths, hbound⟩ := hsized a (Progress.mem_handles hfind)
  obtain rfl := Option.some.inj (haccounts.describes.lengths.symm.trans hlengths)
  exact ⟨t, haccounts, hbound⟩

theorem finds (ho : Outlined data s account) (hsized : s.Sized) : s.plan.Finds account s.find s.outline := by
  intro place a hfind
  obtain ⟨t, haccounts, hbound⟩ := ho.bounded hsized hfind
  refine ⟨⟨t.lengths, a.elementType, a.layout, fun _ => Scalar.zero⟩, ?_, ?_, hbound⟩
  · rw [Progress.outline, hfind, Except.toOption, Option.bind_some, haccounts.describes.lengths, Option.map_some]
  · exact ⟨haccounts.live, ⟨haccounts.describes.lengths, rfl, rfl⟩, haccounts.lengths⟩

variable [ExactIndices α]

theorem add (ho : Outlined data s account) (hsized : s.Sized) {op : Operation Nat} {op' : Operation Handle}
    (hother : op.isWrite = false) (hresolve : op.resolve s.find = .ok op')
    (hrun : op'.perform.runOn s.plan = (.ok b, p')) {lengths : List Nat} (hlengths : b.shape.lengths? = some lengths)
    (hbound : (elementCount lengths : Int) ≤ indexBound) :
    ∃ account', Outlined data ⟨s.results ++ [some b], p'⟩ account' := by
  have hdata : ∀ array, p'.backing.array? b.rule = some array →
      ((p'.backing.array? b.rule).map data).getD #[] = data array := by
    intro array harray
    rw [harray]
    rfl
  obtain ⟨t, _, hadds⟩ :=
    exists_adds ho.wellFormed ho.accounted (ho.finds hsized) hother hresolve hrun hlengths hbound hdata
  have hmeans : (⟨t.lengths, none⟩ : Cell α).Means t (∀ r ∈ op.refs, ∀ a t, s.find r = .ok a →
      s.outline r = some t → account.Knows a t) := ⟨rfl, by simp⟩
  obtain ⟨account', hagrees, hcell, hacc', hopen, _⟩ := hadds.accounted _ hmeans
  refine ⟨account', ho.next hadds.leaves.extends_ hagrees hadds.wellFormed hacc' (hopen ho.opens rfl) ?_⟩
  intro c hc
  obtain rfl := Option.some.inj hc
  exact ⟨t, hadds.live, hadds.describes, congrArg Cell.lengths hcell⟩

theorem write (ho : Outlined data s account) (hsized : s.Sized) {place : Nat} {index : List (Index Nat)}
    {value : Operand Nat} {op' : Operation Handle} (hdirect : ∀ r, Index.gather r ∉ index)
    (hresolve : (Operation.write place index value).resolve s.find = .ok op')
    (hrun : op'.perform.runOn s.plan = (.ok b, p')) :
    ∃ account', Outlined data ⟨s.results ++ [some b], p'⟩ account' := by
  have hlive : ∀ place c, s.find place = .ok c → s.plan.Live c := fun place c hc => by
    obtain ⟨t, haccounts⟩ := ho.places place c hc
    exact haccounts.live
  obtain ⟨a, index', value', ha, hindex, hvalue, hw⟩ := exists_writes ho.wellFormed hlive hresolve hrun
  obtain ⟨t, haccounts, hbound⟩ := ho.bounded hsized ha
  have hreads : ∀ c, value' = .array c → ∃ t, s.plan.Accounts account c t ∧ (elementCount t.lengths : Int) ≤ indexBound := by
    rintro c rfl
    obtain ⟨r, hr⟩ := hvalue.exists_of_mem_refs List.mem_cons_self
    exact ho.bounded hsized hr
  obtain ⟨entries, hasks⟩ := hw.exists_asks haccounts hbound (not_gather_resolve hindex hdirect) hreads
  obtain ⟨account', array, hagrees, hopen, hacc', haccounts', _⟩ :=
    ho.accounted.write ho.wellFormed hw hasks (ho.opens a.rule) fun e _ _ => ho.opens e.1
  have hadvances := hw.advances ho.wellFormed
  refine ⟨account', ho.next hadvances.extends_ hagrees hadvances.wellFormed hacc' (hopen ho.opens) ?_⟩
  intro c hc
  obtain rfl := Option.some.inj hc
  exact ⟨t, haccounts'⟩

theorem step (ho : Outlined data s account) (hreach : s.plan.Reachable s.handles) {op : Operation Nat}
    (hdirect : op.Direct) (hsized : (s.step op).Sized) : ∃ account', Outlined data (s.step op) account' := by
  have hsized' : s.Sized := fun a ha => hsized a (Progress.mem_handles_run ha [op])
  rcases Progress.step_result hreach op with ⟨p', hdraws, hstep⟩ | ⟨op', b, p', hresolve, hrun, hstep⟩
  · rw [hstep]
    exact ⟨account, ho.next hdraws.extends (fun _ _ => rfl) (hdraws.wellFormed ho.wellFormed)
      (hdraws.accounted ho.accounted) ho.opens (by simp)⟩
  · rw [hstep] at hsized ⊢
    obtain ⟨lengths, hlengths, hbound⟩ := hsized b (by simp [Progress.handles])
    cases hwrite : op.isWrite with
    | false => exact ho.add hsized' hwrite hresolve hrun hlengths hbound
    | true =>
      cases op with
      | write place index value => exact ho.write hsized' hdirect hresolve hrun
      | _ => cases hwrite

theorem run (ho : Outlined data s account) (hreach : s.plan.Reachable s.handles) {ops : List (Operation Nat)}
    (hdirect : ∀ op ∈ ops, op.Direct) (hsized : (s.run ops).Sized) : ∃ account', Outlined data (s.run ops) account' := by
  induction ops generalizing s account with
  | nil => exact ⟨account, ho⟩
  | cons op ops ih =>
    have hsized' : (s.step op).Sized := fun a ha => hsized a (Progress.mem_handles_run ha ops)
    obtain ⟨account₁, ho₁⟩ := ho.step hreach (hdirect op List.mem_cons_self) hsized'
    exact ih ho₁ (Progress.step_reachable hreach op) (fun op' hop' => hdirect op' (List.mem_cons_of_mem op hop')) hsized

end Outlined

/-- A script of fixed axes that writes through no array of positions is lowered, for any of its results, to a kernel that
is executed without a fault on all inputs of the declared sizes; each requested result then has an array of its shape. -/
theorem Progress.finalize_runs_safely [ExactIndices α] {id : Nat} {settings : Settings} {ops : List (Operation Nat)}
    {s : Progress} (hs : s = (start (.empty id settings)).run ops) (hdirect : ∀ op ∈ ops, op.Direct) (hsized : s.Sized)
    {outputs : List Handle} (houtputs : ∀ a ∈ outputs, ∃ place, s.find place = .ok a) (withStores : Bool)
    {inputs : List (String × Array α)} (hadmits : s.plan.Admits inputs) :
    ∃ k p' m, (Build.finalize outputs withStores).runOn s.plan = (.ok k, p') ∧ k.execute .empty inputs = .ok m ∧
      ∀ a ∈ outputs, ∃ array b, k.outputArray? a = some array ∧ m.buffer? array = some b ∧
        a.shape.lengths? = some b.lengths := by
  obtain ⟨account, ho⟩ : ∃ account, Outlined (boundData inputs) s account := by
    rw [hs] at hsized ⊢
    exact (Outlined.start (boundData inputs) id settings).run (start_reachable id settings) hdirect hsized
  have hrequested : ∀ a ∈ outputs, ∃ t, s.plan.Accounts account a t ∧ (elementCount t.lengths : Int) ≤ indexBound :=
    fun a ha => by
      obtain ⟨place, hplace⟩ := houtputs a ha
      exact ho.bounded hsized hplace
  obtain ⟨k, p', os, hfinalize, hprepared⟩ :=
    ho.accounted.exists_prepared ho.wellFormed (hs ▸ isOpen id settings ops) hrequested withStores
  obtain ⟨m, hexecute, hstage, _⟩ := hprepared.exists_execution hadmits (fun _ _ => True)
    (fun _ _ _ _ _ _ _ => trivial) fun _ _ => trivial
  refine ⟨k, p', m, hfinalize, hexecute, fun a ha => ?_⟩
  obtain ⟨t, haccounts, _⟩ := hrequested a ha
  obtain ⟨entry, hentry, houtput⟩ := hprepared.lowers.exists_output hprepared.wellFormed ha
  obtain ⟨d, hd, hname, hlengths⟩ := hprepared.exists_declaration (BackingTable.mem_of_find? hentry)
  obtain ⟨b, hb, hshape⟩ := hstage.fits d hd
  refine ⟨entry.array, b, houtput, hname ▸ hb, ?_⟩
  rw [← hshape, hlengths, haccounts.lengths, haccounts.describes.lengths]

def replaceOps : List (Operation Nat) :=
  [.input (.extents [.fixed 2, .fixed 3]) .float64, .combine .mul 0 (.literal (.int 2)), .write 1 [.all, .all] (.array 0),
    .write 2 [.at 1, .all] (.literal (.int 5)), .select 3 [.at 1, .all], .prefixSums 4]

def replaced : Progress :=
  (Progress.start (.empty 0 .default)).run replaceOps

theorem finalize_runs_safely_replaced : replaced.handles.length = 6 ∧
    ∃ k p' m, (Build.finalize replaced.handles true).runOn replaced.plan = (.ok k, p') ∧
      k.execute .empty [("arr0", (#[1, 2, 3, 4, 5, 6] : Array Int))] = .ok m ∧
        ∀ a ∈ replaced.handles, ∃ array b, k.outputArray? a = some array ∧ m.buffer? array = some b ∧
          a.shape.lengths? = some b.lengths := by
  refine ⟨by decide +kernel, ?_⟩
  have hdirect : ∀ op ∈ replaceOps, op.Direct := by simp [replaceOps, Operation.Direct]
  exact Progress.finalize_runs_safely (s := replaced) rfl hdirect (by decide +kernel)
    (fun _ ha => Progress.exists_find ha) true (by decide +kernel)

end ArrayPlan
