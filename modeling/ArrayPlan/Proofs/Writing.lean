import ArrayPlan.Proofs.Histories
import ArrayPlan.Proofs.Reachable

/-!
Writes to accounted plans. The first write through a handle queues a copy of the value and the store, and a later
one the store alone; in both cases the history of the array gains what the write stands for.
-/

namespace ArrayPlan

variable {α : Type} [Scalar α]

section Writing

variable [ExactIndices α] {p p' : Plan} {account : Account α} {data : String → Array α} {a h : Handle} {t : Tensor α}
  {index : List (Index Handle)} {value : Operand Handle} {entries : List (Index (Tensor α))} {u : Operand (Tensor α)}
  {stored : List Int → Option α} {us : List (List (List Int × α))}

/-- A write at known positions, all of them inside the array; values may be known or not. -/
structure Plan.Asks (p : Plan) (account : Account α) (a : Handle) (index : List (Index Handle)) (value : Operand Handle)
    (t : Tensor α) (entries : List (Index (Tensor α))) (stored : List Int → Option α) : Prop where
  accounts : p.Accounts account a t
  bound : (elementCount t.lengths : Int) ≤ indexBound
  gathers : List.Forall₂ (Index.Stands p account) index entries
  value : ∀ (domains : List Domain) (I : Interpretation α), I.Answers account domains p.rules.rules →
    ∃ u, Operand.Reads p I value u ∧ ∀ point x, stored point = some x → Tensor.written t.elementType u point = x
  inside : ∀ x ∈ t.partialUpdates entries stored, InBox x.1 t.lengths

omit [ExactIndices α] in
theorem Tensor.partialUpdates_known (t : Tensor α) (entries : List (Index (Tensor α))) (u : Operand (Tensor α)) :
    t.partialUpdates entries (fun point => some (written t.elementType u point)) =
      knownUpdates (t.updates entries u) := by
  rw [partialUpdates, knownUpdates, updates, List.map_map]
  rfl

theorem Plan.Asks.of_stands (ha : p.Accounts account a t) (hbound : (elementCount t.lengths : Int) ≤ indexBound)
    (hgathers : List.Forall₂ (Index.Stands p account) index entries) (hvalue : Operand.Stands p account value u)
    (hinside : ∀ x ∈ t.updates entries u, InBox x.1 t.lengths) :
    p.Asks account a index value t entries fun point => some (Tensor.written t.elementType u point) := by
  refine ⟨ha, hbound, hgathers, fun domains I hI => ⟨u, hvalue.reads hI, fun point x => Option.some.inj⟩, ?_⟩
  rw [Tensor.partialUpdates_known]
  intro x hx
  obtain ⟨y, hy, rfl⟩ := List.mem_map.1 hx
  exact hinside y hy

theorem Plan.Writes.exists_request (hw : p.Writes a index value h p') : ∃ axes v, p.Request a index value axes v := by
  cases hw with
  | again array axes v vars hrequest => exact ⟨axes, v, hrequest⟩
  | first array axes v copyVars vars params hrequest => exact ⟨axes, v, hrequest⟩

theorem Plan.Writes.exists_asks (hw : p.Writes a index value h p') (ha : p.Accounts account a t)
    (hbound : (elementCount t.lengths : Int) ≤ indexBound) (hplain : ∀ b, Index.gather b ∉ index)
    (hvalue : ∀ b, value = .array b → ∃ t, p.Accounts account b t ∧ (elementCount t.lengths : Int) ≤ indexBound) :
    ∃ entries, p.Asks account a index value t entries fun _ => none := by
  obtain ⟨axes, v, hrequest⟩ := hw.exists_request
  obtain ⟨entries, hstands⟩ := exists_stands p account hplain
  have hwritable := hrequest.entries
  rw [Shape.lengths?_eq_some.1 ha.describes.lengths] at hwritable
  have hcount : index.length = t.lengths.length := hrequest.count.trans ha.describes.length_eq.symm
  refine ⟨entries, ha, hbound, hstands, fun domains I hI => ?_, fun x hx => ?_⟩
  · obtain ⟨u, hreads⟩ := Operand.exists_reads hI hvalue
    exact ⟨u, hreads, fun point x hx => nomatch hx⟩
  · obtain ⟨point, hpoint, rfl⟩ := List.mem_map.1 hx
    exact inBox_addressed hstands hplain hwritable hcount (mem_boxPoints.1 hpoint)

theorem stores_copy {array : String} {vars : List String} {domains : List Domain} {c : Cell α}
    (ha : p.Accounts account a t) (hbound : (elementCount t.lengths : Int) ≤ indexBound) (hnodup : vars.Nodup)
    (hlen : vars.length = a.rank) (hdomains : (domains.flatMap Domain.vars).Nodup)
    (hdomain : .box (vars.zip a.shape.extents) ∈ domains) (hmeans : c.Means t (account.Knows a t)) :
    (p.copyOf a array vars).Stores account domains p.rules.rules array (boxUpdates t.lengths c.value?) := by
  have hrank : vars.length = t.lengths.length := hlen.trans ha.describes.length_eq.symm
  have hextents := Shape.lengths?_eq_some.1 ha.describes.lengths
  have hboxed : Boxed domains .empty vars t.lengths := by
    refine boxed_region hrank hnodup (le_indexBound_of_mem ha.describes.pos hbound) hdomains fun d hd => ?_
    rw [regionDomains, if_neg (by simpa using Handle.vars_ne_nil hlen), List.mem_singleton] at hd
    rw [hd, ← hextents]
    exact hdomain
  refine stores_box hnodup hrank hboxed hbound fun I hI index hindex => ?_
  obtain ⟨w, _, _, _, hknown, helements⟩ := exists_elements hI ha hbound vars
  have hbinds := Env.empty.binds_at hnodup (hrank.trans hindex.length_eq.symm)
  refine ⟨_, helements _ index hbinds hindex, fun f hf => ?_⟩
  obtain ⟨hk, helement⟩ := hmeans.value f hf
  rw [hknown hk, helement index hindex]

theorem Plan.Request.stores (array : String) {axes : List WriteAxis} {v : Operand Handle} {vars : List String}
    {domains : List Domain} (hrequest : p.Request a index value axes v)
    (hasks : p.Asks account a index value t entries stored) (hnodup : vars.Nodup)
    (hlen : vars.length = (WriteAxis.region axes).length) (hdomains : (domains.flatMap Domain.vars).Nodup)
    (hdomain : ∀ d ∈ regionDomains vars (WriteAxis.region axes), d ∈ domains) :
    (p.storeOf array axes v vars).Stores account domains p.rules.rules array (t.partialUpdates entries stored) := by
  have hd := hasks.accounts.describes
  have hextents := Shape.lengths?_eq_some.1 hd.lengths
  obtain ⟨_, hcount, hentries, haddressed, hvalue⟩ := hrequest
  rw [hextents] at haddressed hentries
  subst haddressed
  exact stores_store hasks.gathers hentries (hcount.trans hd.length_eq.symm)
    (le_indexBound_of_mem hd.pos hasks.bound) (hasks.value domains) (hd.elementType ▸ hvalue) hnodup hlen hdomains hdomain

omit [ExactIndices α] in
theorem Plan.Accounted.exists_declaration (hacc : p.Accounted account data) (hp : p.WellFormed)
    (ha : p.Accounts account a t) {array : String} (hbacked : p.backing.array? a.rule = some array) :
    ∃ d ∈ p.arrays, d.name = array ∧ d.shape.lengths? = some t.lengths := by
  obtain ⟨entry, hentry, rfl⟩ := Option.map_eq_some_iff.1 hbacked
  have hmem := BackingTable.mem_of_find? hentry
  obtain ⟨d, hd, hname⟩ := List.mem_map.1 (hp.backed _ hmem).2.1
  refine ⟨d, hd, hname, ?_⟩
  rw [← ha.lengths]
  exact hacc.backed _ hmem d hd hname

section Again

variable {names : NameSupply} {array : String} {axes : List WriteAxis} {v : Operand Handle} {vars : List String}

/-- A later write goes to the array there is, which must not be accounted for. -/
theorem Plan.Accounted.writeAgain (hp : p.WellFormed) (hacc : p.Accounted account data)
    (hrequest : p.Request a index value axes v) (hasks : p.Asks account a index value t entries stored)
    (hbacked : p.backing.array? a.rule = some array) (hlen : vars.length = (WriteAxis.region axes).length)
    (hfits : (p.againGrowth names array axes v vars).Fits p vars)
    (hsecret : ∀ e ∈ p.backing.entries, e.2.array = array → (account e.1).value = none) :
    (p.grow (p.againGrowth names array axes v vars)).Accounted account data := by
  have hstores := hrequest.stores array hasks hfits.draws.nodup hlen (hp.grow hfits).vars_nodup
    fun d hd => List.mem_append_right p.domains hd
  obtain ⟨d, hd, hname, hshape⟩ := hacc.exists_declaration hp hasks.accounts hbacked
  refine hacc.grow hp hfits (fun _ _ => rfl) ⟨?arrays, ?rule, ?backed, fun s hs => ?statements, ?filled, fun s hs e he htargets => ?spares⟩
  case arrays =>
    simp [againGrowth]
  case rule =>
    simp [againGrowth]
  case backed =>
    simp [againGrowth]
  case statements =>
    obtain rfl : s = p.storeOf array axes v vars := by simpa [againGrowth] using hs
    subst hname
    exact ⟨d, List.mem_append_left _ hd, t.lengths, _, hshape, hstores, hasks.inside⟩
  case filled =>
    simp [againGrowth]
  case spares =>
    obtain rfl : s = p.storeOf array axes v vars := by simpa [againGrowth] using hs
    have harray : array = e.2.array := by simpa [Statement.targets, storeOf] using htargets
    exact hsecret e he harray.symm

theorem Plan.Written.writeAgain {ws : List (List Int × α)} (hp : p.WellFormed) (hw : p.Written account data array t us)
    (hrequest : p.Request a index value axes v) (hasks : p.Asks account a index value t entries stored)
    (hknown : t.partialUpdates entries stored = knownUpdates ws) (hlen : vars.length = (WriteAxis.region axes).length)
    (hfits : (p.againGrowth names array axes v vars).Fits p vars) :
    (p.grow (p.againGrowth names array axes v vars)).Written account data array t (us ++ [ws]) := by
  have hstores := hrequest.stores array hasks hfits.draws.nodup hlen (hp.grow hfits).vars_nodup
    fun d hd => List.mem_append_right p.domains hd
  rw [hknown] at hstores
  refine hw.extend hp (extends_grow hfits) (fun _ _ => rfl) rfl ?_ fun e he => .inl ?_
  swap
  · simpa only [Plan.grow, againGrowth, List.map_nil, List.append_nil] using he
  have hfilter : ((p.againGrowth names array axes v vars).statements.map fun s => (p.rules.size, s)).filter
      (fun e => e.2.targets array) = [(p.rules.size, p.storeOf array axes v vars)] := by
    simp [againGrowth, Statement.targets, storeOf]
  rw [hfilter]
  refine .cons ⟨account, .self, ?_⟩ .nil
  rw [take_size_grow]
  exact hstores

end Again

structure Plan.Opens (p : Plan) (account : Account α) (a : Handle) (index : List (Index Handle)) (value : Operand Handle)
    (t : Tensor α) (entries : List (Index (Tensor α))) (stored : List Int → Option α) (names : NameSupply)
    (array rule : String) (axes : List WriteAxis) (v : Operand Handle) (copyVars vars params : List String) : Prop where
  request : p.Request a index value axes v
  asks : p.Asks account a index value t entries stored
  unbacked : p.backing.array? a.rule = none
  copied : copyVars.length = a.rank
  region : vars.length = (WriteAxis.region axes).length
  fits : (p.firstGrowth names a array axes v copyVars vars params rule).Fits p
    ([array] ++ copyVars ++ vars ++ params ++ [rule])
  secret : (account a.rule).value = none

section Opening

variable {names : NameSupply} {array rule : String} {axes : List WriteAxis} {v : Operand Handle}
  {copyVars vars params : List String}
  (hp : p.WellFormed)
  (ho : p.Opens account a index value t entries stored names array rule axes v copyVars vars params)

namespace Plan.Opens

include hp ho

omit [ExactIndices α] in
theorem agrees : account.AgreesOn (account.set rule ⟨t.lengths, none⟩) p.rules.rules :=
  agreesOn_set hp ho.fits.draws (by simp) _

omit [ExactIndices α] hp in
theorem array_unused : array ∉ p.names.taken :=
  ho.fits.draws.unused array (by simp)

omit [ExactIndices α] in
theorem cell_eq : account.set rule ⟨t.lengths, none⟩ a.rule = account a.rule :=
  ho.request.live.cell_eq (ho.agrees hp)

omit [ExactIndices α] in
theorem secrets : ∀ b ∈ (p.firstGrowth names a array axes v copyVars vars params rule).backed, b.2 = array ∧
    account.set rule ⟨t.lengths, none⟩ b.1 = ⟨t.lengths, none⟩ := by
  intro b hb
  rcases List.mem_cons.1 hb with rfl | hb
  · exact ⟨rfl, account.set_self rule _⟩
  · obtain rfl := List.mem_singleton.1 hb
    refine ⟨rfl, (ho.cell_eq hp).trans ?_⟩
    rw [← ho.asks.accounts.lengths, ← ho.secret]

theorem stores_store : (p.storeOf array axes v vars).Stores (account.set rule ⟨t.lengths, none⟩)
    (p.grow (p.firstGrowth names a array axes v copyVars vars params rule)).domains p.rules.rules array
      (t.partialUpdates entries stored) := by
  have hnodup := ho.fits.draws.nodup
  simp only [List.append_assoc, List.nodup_append] at hnodup
  have hdomain : ∀ d ∈ regionDomains vars (WriteAxis.region axes),
      d ∈ (p.grow (p.firstGrowth names a array axes v copyVars vars params rule)).domains :=
    fun d hd => List.mem_append_right p.domains (List.mem_cons_of_mem _ hd)
  have hstores := ho.request.stores array ho.asks hnodup.2.1.2.1.1 ho.region (hp.grow ho.fits).vars_nodup hdomain
  exact hstores.congr (ho.agrees hp)

theorem stores_copy {κ : Account α} {c : Cell α} (hκ : p.Accounts κ a t) (hmeans : c.Means t (κ.Knows a t)) :
    (p.copyOf a array copyVars).Stores κ
      (p.grow (p.firstGrowth names a array axes v copyVars vars params rule)).domains p.rules.rules array
        (boxUpdates t.lengths c.value?) := by
  have hnodup := ho.fits.draws.nodup
  simp only [List.append_assoc, List.nodup_append] at hnodup
  have hbox : .box (copyVars.zip a.shape.extents) ∈
      (p.grow (p.firstGrowth names a array axes v copyVars vars params rule)).domains :=
    List.mem_append_right p.domains List.mem_cons_self
  exact ArrayPlan.stores_copy hκ ho.asks.bound hnodup.2.1.1 ho.copied (hp.grow ho.fits).vars_nodup hbox hmeans

theorem accounted (hacc : p.Accounted account data) :
    (p.grow (p.firstGrowth names a array axes v copyVars vars params rule)).Accounted
      (account.set rule ⟨t.lengths, none⟩) data := by
  have hfresh := ho.array_unused
  have hshape := ho.asks.accounts.describes.lengths
  have haccounts : p.Accounts (account.set rule ⟨t.lengths, none⟩) a t :=
    ⟨ho.asks.accounts.live, ho.asks.accounts.describes, (ho.cell_eq hp).symm ▸ ho.asks.accounts.lengths⟩
  have hstore := ho.stores_store hp
  have hcopy := ho.stores_copy hp (c := ⟨t.lengths, none⟩) haccounts ⟨rfl, by simp⟩
  have hsecrets := ho.secrets hp
  refine hacc.grow hp ho.fits (ho.agrees hp) ?_
  constructor
  case arrays =>
    intro d hd
    obtain rfl := List.mem_singleton.1 hd
    exact ⟨t.lengths, hshape⟩
  case rule =>
    intro r hr
    obtain rfl : (⟨rule, params, .load array (params.map .var)⟩ : Rule) = r := Option.some.inj hr
    exact .inl List.mem_cons_self
  case backed =>
    intro b hb d hd hname
    obtain ⟨harray, hcell⟩ := hsecrets b hb
    rw [hcell]
    rcases List.mem_append.1 hd with hd | hd
    · exact absurd (hname.trans harray) (ne_of_declared hp hfresh d hd)
    · obtain rfl := List.mem_singleton.1 hd
      exact hshape
  case statements =>
    intro s hs
    have hdeclared : (⟨array, a.shape, a.elementType, .temporary⟩ : Declaration) ∈
        p.arrays ++ (p.firstGrowth names a array axes v copyVars vars params rule).arrays := by
      simp [firstGrowth]
    rcases List.mem_cons.1 hs with rfl | hs
    · exact ⟨_, hdeclared, t.lengths, _, hshape, hcopy, fun x hx => inBox_of_mem_boxUpdates hx⟩
    · obtain rfl := List.mem_singleton.1 hs
      exact ⟨_, hdeclared, t.lengths, _, hshape, hstore, ho.asks.inside⟩
  case filled =>
    intro b hb f hf
    rw [(hsecrets b hb).2] at hf
    cases hf
  case spares =>
    intro s hs e he htargets
    have htarget : ∃ index, s.target = .load array index := by
      rcases List.mem_cons.1 hs with rfl | hs
      · exact ⟨_, rfl⟩
      · rw [List.mem_singleton.1 hs]
        exact ⟨_, rfl⟩
    obtain ⟨j, hj⟩ := htarget
    obtain ⟨j', hj'⟩ := Statement.targets_iff.1 htargets
    rw [hj] at hj'
    exact absurd (Expr.load.inj hj').1.symm (ne_of_backed hp hfresh e he)

theorem written {ws : List (List Int × α)} (hknown : t.partialUpdates entries stored = knownUpdates ws) {i : Nat}
    {r : Rule} (hr : p.rules.rules[i]? = some r) (hname : r.name = a.rule)
    (hcomputes : r.Computes account p.domains (p.rules.rules.take i) ⟨t.lengths, some t.element⟩) :
    (p.grow (p.firstGrowth names a array axes v copyVars vars params rule)).Written
      (account.set rule ⟨t.lengths, none⟩) data array t [ws] := by
  have hfresh := ho.array_unused
  have hstore := ho.stores_store hp
  rw [hknown] at hstore
  have hsecrets := ho.secrets hp
  have hsame := ho.cell_eq hp
  have hagrees := ho.agrees hp
  have hlengths := ho.asks.accounts.lengths
  refine ⟨fun e he harray => ?_, [boxUpdates t.lengths t.element], ?_, .inl rfl⟩
  · rcases List.mem_append.1 he with he | he
    · exact absurd harray (ne_of_backed hp hfresh e he)
    · obtain ⟨b, hb, rfl⟩ := List.mem_map.1 he
      rw [(hsecrets b hb).2]
  · have hnone := filter_targets_of_fresh hp hfresh
    have hfilter : (p.grow (p.firstGrowth names a array axes v copyVars vars params rule)).pending.filter
        (fun e => e.2.targets array) =
          [(p.rules.size, p.copyOf a array copyVars), (p.rules.size, p.storeOf array axes v vars)] := by
      rw [Plan.grow, List.filter_append, hnone]
      simp [firstGrowth, Statement.targets, copyOf, storeOf]
    rw [hfilter]
    have hext := extends_grow ho.fits
    have hcell : (account.set rule ⟨t.lengths, none⟩ r.name).lengths = t.lengths := by rw [hname, hsame, hlengths]
    refine .cons ⟨_, .rule (f := t.element) (hext.rule_at hr) (List.getElem?_eq_some_iff.1 hr).1 ?_ ?_, ?_⟩
      (.cons ⟨_, .self, ?_⟩ .nil)
    · refine ⟨(a.rule, ⟨array, p.rules.rules.length + 1⟩), ?_, hname.symm, Nat.lt_succ_self _⟩
      simp [Plan.grow, firstGrowth]
    · rw [hcell]
      exact hext.computes hagrees hr hcomputes
    · rw [take_size_grow, hcell, hname]
      generalize hκ : (account.set rule ⟨t.lengths, none⟩).set a.rule ⟨t.lengths, some t.element⟩ = κ
      have hcell : κ a.rule = ⟨t.lengths, some t.element⟩ := by rw [← hκ, Account.set_self]
      have haccounts : p.Accounts κ a t := ⟨ho.asks.accounts.live, ho.asks.accounts.describes, by rw [hcell]⟩
      have hknows : κ.Knows a t := by rw [Account.Knows, hcell]
      have hmeans : (⟨t.lengths, some t.element⟩ : Cell α).Means t (κ.Knows a t) :=
        ⟨rfl, fun f hf => ⟨hknows, fun _ _ => by rw [Option.some.inj hf]⟩⟩
      have hcopy := ho.stores_copy hp haccounts hmeans
      rwa [boxUpdates_known] at hcopy
    · rw [take_size_grow]
      exact hstore

end Plan.Opens

end Opening

/-- A write of an array that is not accounted for adds to the history of the array, which the handle is backed by from
then on. -/
theorem Plan.Accounted.write (hp : p.WellFormed) (hacc : p.Accounted account data) (hw : p.Writes a index value h p')
    (hasks : p.Asks account a index value t entries stored) (hsecret : (account a.rule).value = none)
    (hsecrets : ∀ e ∈ p.backing.entries, p.backing.array? a.rule = some e.2.array → (account e.1).value = none) :
    ∃ account' array, account.AgreesOn account' p.rules.rules ∧ (account.Open → account'.Open) ∧
      p'.Accounted account' data ∧ p'.Accounts account' h t ∧ p'.backing.array? a.rule = some array ∧
        p'.backing.array? h.rule = some array ∧ ∀ us ws, p.Subject account data a t us →
          t.partialUpdates entries stored = knownUpdates ws → p'.Written account' data array t (us ++ [ws]) := by
  have hadvances := hw.advances hp
  cases hw with
  | again array axes v vars hrequest hbacked hlen hfits hgrown hhandle =>
    have hbacked' := hadvances.extends_.array? hbacked
    generalize p'.names = names at hfits hgrown
    subst hgrown hhandle
    have hagrees : account.AgreesOn account p.rules.rules := fun _ _ => rfl
    refine ⟨account, array, hagrees, fun h => h, ?_, hasks.accounts.extend hadvances.extends_ hagrees, hbacked',
      hbacked', fun us ws hs hknown => ?_⟩
    · exact hacc.writeAgain hp hrequest hasks hbacked hlen hfits fun e he harray =>
        hsecrets e he (harray ▸ hbacked)
    · cases hs with
      | unwritten hnone => cases hnone.symm.trans hbacked
      | written array' hbacked' hwritten =>
        cases hbacked'.symm.trans hbacked
        exact hwritten.writeAgain hp hrequest hasks hknown hlen hfits
  | first array axes v copyVars vars params hrequest hbacked hcopy hlen hparams hfits hgrown hhandle =>
    have hdescribes : t.Describes h := by
      rw [hhandle]
      exact ⟨hasks.accounts.describes.lengths, hasks.accounts.describes.elementType, hasks.accounts.describes.layout⟩
    generalize p'.names = names at hfits hgrown
    subst hgrown
    have ho : p.Opens account a index value t entries stored names array h.rule axes v copyVars vars params :=
      ⟨hrequest, hasks, hbacked, hcopy, hlen, hfits, hsecret⟩
    have harray : ∀ rule, (rule, array) ∈ (p.firstGrowth names a array axes v copyVars vars params h.rule).backed →
        (p.grow (p.firstGrowth names a array axes v copyVars vars params h.rule)).backing.array? rule = some array :=
      fun rule hmem => array?_of_backed hp hfits hmem
    refine ⟨_, array, ho.agrees hp, fun hopen => hopen.set rfl h.rule, ho.accounted hp hacc,
      ⟨hadvances.live, hdescribes, ?_⟩, harray a.rule (by simp [firstGrowth]), harray h.rule (by simp [firstGrowth]),
      fun us ws hs hknown => ?_⟩
    · rw [Account.set_self]
    · cases hs with
      | unwritten hnone hsecret hr hname hcomputes => exact ho.written hp hknown hr hname hcomputes
      | written array' hbacked' => cases hbacked.symm.trans hbacked'

end Writing

end ArrayPlan
