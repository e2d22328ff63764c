import ArrayPlan.Proofs.Causality
import ArrayPlan.Proofs.Histories
import ArrayPlan.Proofs.Readings

/-!
Execution of accounted plans. The statements of a lowered plan are executed one after the other. While this goes
on, an array that no statement to come stores into holds what the account says of the rules that it backs. A
statement sees only such arrays, or arrays of which nothing is said, so it stores what it is accounted to store.
-/

namespace ArrayPlan

variable {α : Type}

section Elements

theorem storeElements_of_mem {us : List (List Int × α)} {index : List Int} {x : α} (g : List Int → α)
    (hmem : g index = x ∨ ∃ u ∈ us, u.1 = index) (hall : ∀ u ∈ us, u.1 = index → u.2 = x) :
    storeElements g us index = x := by
  induction us generalizing g with
  | nil => exact hmem.resolve_right (by simp)
  | cons u us ih =>
    refine ih _ ?_ fun v hv => hall v (List.mem_cons_of_mem u hv)
    by_cases hu : index = u.1
    · exact .inl ((if_pos hu).trans (hall u List.mem_cons_self hu.symm))
    · rcases hmem with hg | ⟨v, hv, hindex⟩
      · exact .inl ((if_neg hu).trans hg)
      · rcases List.mem_cons.1 hv with rfl | hv
        · exact absurd hindex.symm hu
        · exact .inr ⟨v, hv, hindex⟩

theorem storeElements_boxUpdates {lengths : List Nat} {index : List Int} (h : InBox index lengths) (g f : List Int → α) :
    storeElements g (boxUpdates lengths f) index = f index := by
  refine storeElements_of_mem g (.inr ⟨(index, f index), List.mem_map.2 ⟨index, mem_boxPoints.2 h, rfl⟩, rfl⟩) ?_
  intro u hu hindex
  obtain ⟨index', _, rfl⟩ := List.mem_map.1 hu
  exact congrArg f hindex

/-- Values that are stored at given positions, and are the given ones where these are known. -/
def Matches (u : List Int × Option α) (v : List Int × α) : Prop :=
  v.1 = u.1 ∧ ∀ x, u.2 = some x → v.2 = x

theorem eq_of_matches {us vs : List (List Int × α)} (h : List.Forall₂ Matches (knownUpdates us) vs) : vs = us := by
  induction us generalizing vs with
  | nil => exact List.forall₂_nil_left_iff.1 h
  | cons u us ih =>
    obtain ⟨v, vs', hv, hvs, rfl⟩ := List.forall₂_cons_left_iff.1 h
    rw [ih hvs, show v = u from Prod.ext hv.1 (hv.2 u.2 rfl)]

end Elements

variable [Scalar α]

namespace Memory

def Fits (m : Memory α) (arrays : List Declaration) : Prop :=
  ∀ d ∈ arrays, ∃ b, m.buffer? d.name = some b ∧ d.shape.lengths? = some b.lengths

/-- At most elements of one array differ. -/
structure Alters (m m' : Memory α) (array : String) : Prop where
  lengths : ∀ other, (m'.buffer? other).map Buffer.lengths = (m.buffer? other).map Buffer.lengths
  elsewhere : ∀ other, other ≠ array → ∀ index, m'.load? other index = m.load? other index

section Alters

variable {m m' m'' : Memory α} {array : String} {arrays : List Declaration}

theorem Alters.refl (m : Memory α) (array : String) : m.Alters m array :=
  ⟨fun _ => rfl, fun _ _ _ => rfl⟩

theorem Alters.trans (h : m.Alters m' array) (h' : m'.Alters m'' array) : m.Alters m'' array :=
  ⟨fun other => (h'.lengths other).trans (h.lengths other),
    fun other hother index => (h'.elsewhere other hother index).trans (h.elsewhere other hother index)⟩

theorem alters_store {index : List Int} {v : α} (h : m.store array index v = .ok m') : m.Alters m' array where
  lengths := lengths_store h
  elsewhere other hother otherIndex := by
    rw [load?_store h, if_neg fun hsame => hother hsame.1]

theorem Alters.fits (h : m.Alters m' array) (hfits : m.Fits arrays) : m'.Fits arrays := by
  intro d hd
  obtain ⟨b, hb, hlengths⟩ := hfits d hd
  obtain ⟨b', hb', hsame⟩ := Option.map_eq_some_iff.1 ((h.lengths d.name).trans (congrArg _ hb))
  exact ⟨b', hb', hsame ▸ hlengths⟩

theorem Alters.isSome_load? (h : m.Alters m' array) (other : String) (index : List Int) :
    (m'.load? other index).isSome = (m.load? other index).isSome := by
  have hlengths := h.lengths other
  cases hb : m.buffer? other with
  | none =>
    rw [hb] at hlengths
    rw [load?_eq_none hb, load?_eq_none (Option.map_eq_none_iff.1 hlengths)]
  | some b =>
    rw [hb] at hlengths
    obtain ⟨b', hb', hsame⟩ := Option.map_eq_some_iff.1 hlengths
    rw [Bool.eq_iff_iff, load?_isSome_iff hb, load?_isSome_iff hb', hsame]

theorem Fits.isSome_load? (h : m.Fits arrays) {d : Declaration} (hd : d ∈ arrays) {lengths : List Nat}
    (hlengths : d.shape.lengths? = some lengths) {index : List Int} (hindex : InBox index lengths) :
    ∃ v, m.load? d.name index = some v := by
  obtain ⟨b, hb, hb'⟩ := h d hd
  obtain rfl := Option.some.inj (hlengths.symm.trans hb')
  exact Option.isSome_iff_exists.1 ((load?_isSome_iff hb).2 hindex)

end Alters

end Memory

theorem toIndex_zero [ExactIndices α] : Scalar.toIndex (Scalar.ofInt 0 : α) = 0 :=
  ExactIndices.toIndex_ofInt 0 (Int.le_refl 0) (by decide)

section Answering

variable {p p' : Plan} {outputs : List Handle} {os : List Realization} {k : Kernel} {account : Account α}
  {data : String → Array α} {m : Memory α}

/-- The arrays that are seen at an index hold what the account says. -/
def Memory.Holds (m : Memory α) (t : BackingTable) (account : Account α) (i : Nat) : Prop :=
  ∀ e ∈ t.entries, e.2.visibleFrom ≤ i → ∀ index, InBox index (account e.1).lengths →
    (account e.1).Holds index (m.load? e.2.array index)

namespace Plan.Lowers

theorem holds_call (hp : p.WellFormed) (h : p.Lowers outputs os k p') {i j : Nat} {r : Rule}
    (hr : p.rules.rules[j]? = some r) (hunseen : p'.backing.arrayAt? r.name i = none)
    (hanswers : (k.readingAt .empty p'.backing m j).Answers account k.domains (p.rules.rules.take j)) {c : Cell α}
    [ExactIndices α] (hcomputes : r.Computes account p.domains (p.rules.rules.take j) c) {index : List Int}
    (htakes : r.Takes c.lengths index) :
    c.Holds (Interpretation.elementIndex index) ((k.readingAt .empty p'.backing m i).call r.name index) := by
  have hlength : r.params.length = index.length := htakes.1.symm
  rw [Kernel.call_readingAt_of_unseen hunseen, h.call_reading hp hr, if_pos hlength]
  rw [h.domains] at hanswers
  exact hcomputes _ (hanswers.mono fun _ hr => hr) index htakes

theorem computes_of_unseen (hp : p.WellFormed) (hacc : p.Accounted account data) (h : p.Lowers outputs os k p')
    {i j : Nat} {r : Rule} (hr : p.rules.rules[j]? = some r) (hj : j < i)
    (hunseen : p'.backing.arrayAt? r.name i = none) :
    r.Computes account p.domains (p.rules.rules.take j) (account r.name) := by
  refine (hacc.rules j r hr).resolve_left ?_
  rintro ⟨e, he, hname, hvisible⟩
  have hfind : p.backing.find? r.name = some e.2 := hname ▸ BackingTable.find?_of_mem hp.backed_nodup he
  rw [BackingTable.arrayAt?, h.find?_backed hfind] at hunseen
  simp only [hvisible] at hunseen
  rw [if_pos (by omega)] at hunseen
  cases hunseen

/-- If the arrays that are seen hold what the account says, so do the calls. -/
theorem answers [ExactIndices α] (hp : p.WellFormed) (hacc : p.Accounted account data)
    (h : p.Lowers outputs os k p') {i : Nat} (hholds : m.Holds p'.backing account i) :
    (k.readingAt .empty p'.backing m i).Answers account k.domains (p.rules.rules.take i) := by
  induction i using Nat.strongRecOn with
  | ind i ih =>
    refine ⟨fun r hr index htakes => ?_, fun vars _ => Kernel.points_readingAt vars⟩
    obtain ⟨j, hj, hget⟩ := List.mem_take_iff_getElem.1 hr
    have hr : p.rules.rules[j]? = some r := List.getElem?_eq_some_iff.2 ⟨by omega, hget⟩
    cases hseen : p'.backing.arrayAt? r.name i with
    | some array =>
      obtain ⟨entry, hentry, hvisible, rfl⟩ := BackingTable.exists_entry_of_arrayAt? hseen
      have hload : (k.readingAt .empty p'.backing m i).call r.name index =
          m.load? entry.array (Interpretation.elementIndex index) := by
        rw [Kernel.call_readingAt_of_seen hseen, Interpretation.loadedIndex_eq toIndex_zero]
      rw [hload]
      exact hholds _ hentry hvisible _ htakes.2
    | none =>
      have hbefore : (k.readingAt .empty p'.backing m j).Answers account k.domains (p.rules.rules.take j) :=
        ih j (by omega) fun e he hvisible => hholds e he (by omega)
      exact h.holds_call hp hr hseen hbefore (h.computes_of_unseen hp hacc hr (by omega) hseen) htakes

theorem answers_refined [ExactIndices α] (hp : p.WellFormed) (hacc : p.Accounted account data)
    (h : p.Lowers outputs os k p') {i : Nat} (hholds : m.Holds p'.backing account i) {κ : Account α}
    (hκ : p.Refines account i κ) : (k.readingAt .empty p'.backing m i).Answers κ k.domains (p.rules.rules.take i) := by
  have hanswers := h.answers hp hacc hholds
  cases hκ with
  | self => exact hanswers
  | @rule j r f hr hj hunseen hcomputes =>
    refine ⟨fun r' hr' index htakes => ?_, hanswers.points⟩
    by_cases hname : r'.name = r.name
    · obtain rfl : r' = r :=
        List.inj_on_of_nodup_map hp.rules_nodup (List.mem_of_mem_take hr') (List.mem_of_getElem? hr) hname
      obtain ⟨e, he, hname, hlater⟩ := hunseen
      have hnone : p'.backing.arrayAt? r'.name i = none := by
        rw [BackingTable.arrayAt?, h.find?_backed (hname ▸ BackingTable.find?_of_mem hp.backed_nodup he)]
        exact if_neg (by omega)
      have hbefore : (k.readingAt .empty p'.backing m j).Answers account k.domains (p.rules.rules.take j) :=
        h.answers hp hacc fun e he hvisible => hholds e he (by omega)
      rw [Account.set_self] at htakes ⊢
      exact h.holds_call hp hr hnone hbefore hcomputes htakes
    · rw [Account.set, if_neg hname] at htakes ⊢
      exact hanswers.call r' hr' index htakes

end Plan.Lowers

end Answering

section Executing

variable {p p' : Plan} {outputs : List Handle} {os : List Realization} {k : Kernel} {account κ : Account α}
  {data : String → Array α} {m m' : Memory α} {s : Statement} {array : String} {lengths : List Nat}
  {rules : List Rule}

theorem Plan.Lowers.storeAt [ExactIndices α] (hp : p.WellFormed) (h : p.Lowers outputs os k p') {key : Nat}
    {index : List Expr} (htarget : s.target = .load array index) {point : Env} {position : List Int} {v : α}
    (hposition : (k.readingAt .empty p'.backing m key).position? index point = some position)
    (hvalue : (k.readingAt .empty p'.backing m key).value? s.value point = some v)
    (hstored : ∃ x, m.load? array position = some x) :
    ∃ m', k.storeAt .empty (s.loadBacked p'.backing key) m point = .ok m' ∧ m.store array position v = .ok m' := by
  obtain ⟨m', hm'⟩ : ∃ m', m.store array position v = .ok m' :=
    (Memory.store_ok_iff (v := v)).2 (Option.isSome_iff_exists.2 hstored)
  exact ⟨m', (Kernel.storeAt_loadBacked_iff (h.layered hp) htarget).2 ⟨position, v, hposition, hvalue, hm'⟩, hm'⟩

/-- A statement stores what it is accounted to store, if the account is right whatever the statement has stored
so far. -/
theorem Plan.Lowers.execute [ExactIndices α] (hp : p.WellFormed) (h : p.Lowers outputs os k p') {key : Nat}
    {updates : List (List Int × Option α)} (hstores : s.Stores κ k.domains rules array updates)
    (hinside : ∀ m', m.Alters m' array → ∀ u ∈ updates, ∃ x, m'.load? array u.1 = some x)
    (hanswers : ∀ m', m.Alters m' array → (k.readingAt .empty p'.backing m' key).Answers κ k.domains rules) :
    ∃ m' values, k.executeStatement .empty m (s.loadBacked p'.backing key) = .ok m' ∧ m.Alters m' array ∧
      List.Forall₂ Matches updates values ∧ ∀ g index, m.load? array index = some (g index) →
        m'.load? array index = some (storeElements g values index) := by
  obtain ⟨index, points, htarget, hpoints, hupdates⟩ := hstores
  have hexecute : ∀ m : Memory α, k.executeStatement .empty m (s.loadBacked p'.backing key) =
      points.foldlM (k.storeAt .empty (s.loadBacked p'.backing key)) m := by
    intro m
    rw [Kernel.executeStatement, show (s.loadBacked p'.backing key).within = s.within from rfl, hpoints]
    rfl
  simp only [hexecute]
  clear hpoints hexecute
  induction hupdates generalizing m with
  | nil => exact ⟨m, [], rfl, .refl m array, .nil, fun g index hg => hg⟩
  | @cons point u points updates hpoint _ ih =>
    obtain ⟨hposition, v, hvalue, hknown⟩ := hpoint _ (hanswers m (.refl m array))
    obtain ⟨m₁, hstore, hm₁⟩ :=
      h.storeAt hp htarget hposition hvalue (hinside m (.refl m array) u List.mem_cons_self)
    have halters := Memory.alters_store hm₁
    obtain ⟨m', values, hrest, halters', hmatches, hcontents⟩ :=
      ih (fun m' hm' u' hu' => hinside m' (halters.trans hm') u' (List.mem_cons_of_mem u hu'))
        fun m' hm' => hanswers m' (halters.trans hm')
    refine ⟨m', (u.1, v) :: values, ?_, halters.trans halters', .cons ⟨rfl, hknown⟩ hmatches, fun g i hg => ?_⟩
    · rw [List.foldlM_cons, hstore]
      exact hrest
    · refine hcontents (fun index => if index = u.1 then v else g index) i ?_
      rw [Memory.load?_store hm₁]
      by_cases hi : i = u.1
      · simp [hi]
      · simp [hi, hg]

end Executing

section Due

omit [Scalar α]

variable {pending : List (Nat × Statement)} {os : List Realization} {stop : Nat} {e : Nat × Statement}

theorem agenda_sorted (pending : List (Nat × Statement)) (os : List Realization) (stop : Nat) :
    (agenda pending os stop).Pairwise fun e e' => e.1 ≤ e'.1 := by
  induction stop with
  | zero => exact .nil
  | succ stop ih =>
    refine List.pairwise_append.2 ⟨ih, ?_, fun e he e' he' => ?_⟩
    · refine List.pairwise_of_forall_mem_list fun e he e' he' => Nat.le_of_eq ?_
      rw [(mem_dueAt_iff.1 he).1, (mem_dueAt_iff.1 he').1]
    · rw [(mem_dueAt_iff.1 he').1]
      exact Nat.le_of_lt (mem_agenda_iff.1 he).1

theorem filter_lt_succ {β : Type} {key : β → Nat} {l : List β} (hsorted : (l.map key).Pairwise (· ≤ ·)) (stop : Nat) :
    l.filter (fun a => key a < stop + 1) = l.filter (fun a => key a < stop) ++ l.filter fun a => key a = stop := by
  induction l with
  | nil => rfl
  | cons a l ih =>
    obtain ⟨hfirst, hrest⟩ := List.pairwise_cons.1 hsorted
    have htail := ih hrest
    by_cases hlt : key a < stop
    · simp only [List.filter_cons, hlt, Nat.lt_succ_of_lt hlt, Nat.ne_of_lt hlt, decide_true, decide_false, if_true,
        htail]
      rfl
    · have hnone : l.filter (fun a => key a < stop) = [] := by
        rw [List.filter_eq_nil_iff]
        intro a' ha'
        have hle := hfirst (key a') (List.mem_map_of_mem ha')
        simpa using Nat.le_trans (Nat.not_lt.1 hlt) hle
      rw [hnone, List.nil_append] at htail
      by_cases heq : key a = stop
      · simp only [List.filter_cons, heq, Nat.lt_irrefl, Nat.lt_add_one, hnone, htail, decide_true, decide_false,
          if_true]
        rfl
      · have hle : ¬ key a < stop + 1 := by omega
        simp only [List.filter_cons, hlt, heq, hle, hnone, htail, decide_false]
        rfl

end Due

/-- The statement stores these updates, whenever the arrays that are seen at its index hold what the account says. -/
def Kernel.Promises (k : Kernel) (t : BackingTable) (account : Account α) (e : Nat × Statement) (array : String)
    (updates : List (List Int × Option α)) : Prop :=
  ∃ κ rules, e.2.Stores κ k.domains rules array updates ∧
    ∀ m : Memory α, m.Holds t account e.1 → (k.readingAt .empty t m e.1).Answers κ k.domains rules

/-- A plan that is accounted for and lowered, with outputs that are small enough. -/
structure Plan.Prepared (p : Plan) (account : Account α) (data : String → Array α) (outputs : List Handle)
    (os : List Realization) (k : Kernel) (p' : Plan) : Prop where
  wellFormed : p.WellFormed
  accounted : p.Accounted account data
  lowers : p.Lowers outputs os k p'
  requested : ∀ a ∈ outputs, ∃ t, p.Accounts account a t ∧ (elementCount t.lengths : Int) ≤ indexBound

namespace Plan.Prepared

variable {p p' : Plan} {outputs : List Handle} {os : List Realization} {k : Kernel} {account κ : Account α}
  {data : String → Array α} {e : Nat × Statement} {array : String}

theorem exists_requested (h : p.Prepared account data outputs os k p') {o : Realization} (ho : o ∈ os) :
    ∃ t, p.Accounts account o.handle t ∧ (elementCount t.lengths : Int) ≤ indexBound ∧
      o.handle.rule = o.rule.name ∧ o.rule ∈ p.rules.rules ∧ p.backing.find? o.rule.name = none := by
  obtain ⟨hrule, hreq, _⟩ := h.lowers.sound o ho
  obtain ⟨hmem, hname, hnone⟩ := requestedIn_eq_some hreq
  obtain ⟨t, ht, hbound⟩ := h.requested o.handle hmem
  exact ⟨t, ht, hbound, hname, List.mem_of_getElem? hrule, hnone⟩

theorem computes (h : p.Prepared account data outputs os k p') {o : Realization} (ho : o ∈ os) :
    o.rule.Computes account p.domains (p.rules.rules.take o.index) (account o.rule.name) := by
  obtain ⟨_, _, _, _, _, hnone⟩ := h.exists_requested ho
  refine (h.accounted.rules o.index o.rule (h.lowers.sound o ho).1).resolve_left ?_
  rintro ⟨e, he, hname, _⟩
  exact BackingTable.find?_eq_none_iff.1 hnone (hname ▸ List.mem_map_of_mem he)

theorem exists_lengths (h : p.Prepared account data outputs os k p') {d : Declaration} (hd : d ∈ k.arrays) :
    ∃ lengths, d.shape.lengths? = some lengths := by
  rw [h.lowers.arrays] at hd
  rcases List.mem_append.1 hd with hd | hd
  · exact h.accounted.arrays d hd
  · obtain ⟨o, ho, rfl⟩ := List.mem_map.1 hd
    obtain ⟨t, ht, _⟩ := h.exists_requested ho
    exact ⟨t.lengths, ht.describes.lengths⟩

theorem exists_declaration (h : p.Prepared account data outputs os k p') {entry : String × BackingEntry}
    (hentry : entry ∈ p'.backing.entries) :
    ∃ d ∈ k.arrays, d.name = entry.2.array ∧ d.shape.lengths? = some (account entry.1).lengths := by
  rw [h.lowers.backing] at hentry
  rw [h.lowers.arrays]
  rcases List.mem_append.1 hentry with hentry | hentry
  · obtain ⟨d, hd, hname⟩ := List.mem_map.1 (h.wellFormed.backed entry hentry).2.1
    exact ⟨d, List.mem_append_left _ hd, hname, h.accounted.backed entry hentry d hd hname⟩
  · obtain ⟨o, ho, rfl⟩ := List.mem_map.1 hentry
    obtain ⟨t, ht, _, hname, _⟩ := h.exists_requested ho
    refine ⟨o.declaration, List.mem_append_right _ (List.mem_map_of_mem ho), rfl, ?_⟩
    show o.handle.shape.lengths? = some (account o.rule.name).lengths
    rw [ht.describes.lengths, ← hname, ht.lengths]

variable [ExactIndices α]

theorem promises_of_keeps (h : p.Prepared account data outputs os k p') (he : e ∈ p.pending)
    (hκ : p.Refines account e.1 κ) {updates : List (List Int × Option α)}
    (hstores : e.2.Stores κ p.domains (p.rules.rules.take e.1) array updates) :
    k.Promises p'.backing account e array updates := by
  refine ⟨κ, p.rules.rules.take e.1, ?_, fun m hm => h.lowers.answers_refined h.wellFormed h.accounted hm hκ⟩
  rw [h.lowers.domains]
  exact hstores.mono (h.wellFormed.pending e he).2.vars fun _ _ => rfl

omit [ExactIndices α] in
theorem holds_callAtOrigin {I : Interpretation α} {domains : List Domain} {rules : List Rule} {a : Handle}
    {t : Tensor α} {r : Rule} (hI : I.Answers account domains rules) (hr : r ∈ rules) (hd : t.Describes a)
    (harity : r.arity = a.rank ∨ r.arity = 0 ∧ a.shape = .unit) (hunit : a.shape = .unit)
    (hlengths : (account r.name).lengths = t.lengths) (hzero : I.position? [.int 0] .empty = some [0]) :
    (account r.name).Holds [0] (I.value? (.call r.name (List.replicate r.arity (.int 0))) .empty) := by
  have hbox : InBox [0] t.lengths := by
    rw [hd.lengths_unit hunit]
    decide
  obtain ⟨htakes, helement⟩ := takes_of_inBox hd harity hbox
  have hholds := hI.call r hr _ (hlengths.symm ▸ htakes)
  rw [helement] at hholds
  have hrank : a.rank = 1 := by
    rw [Handle.rank, hunit]
    rfl
  rw [Interpretation.value?_call_eq]
  rcases harity with harity | ⟨harity, _⟩
  · rw [harity, hrank] at hholds ⊢
    rw [show List.replicate 1 (Expr.int 0) = [.int 0] from rfl, hzero]
    exact hholds
  · rw [harity] at hholds ⊢
    exact hholds

theorem stores_realization (h : p.Prepared account data outputs os k p') {o : Realization} (ho : o ∈ os) :
    o.store.Stores account k.domains (p.rules.rules.take (o.index + 1)) o.array
      (boxUpdates (account o.rule.name).lengths (account o.rule.name).value?) := by
  obtain ⟨t, ht, hbound, hname, hmem, _⟩ := h.exists_requested ho
  obtain ⟨hrule, _, hvars⟩ := h.lowers.sound o ho
  have hlengths : (account o.rule.name).lengths = t.lengths := hname ▸ ht.lengths
  have harity : o.rule.arity = o.handle.rank ∨ o.rule.arity = 0 ∧ o.handle.shape = .unit := by
    obtain ⟨r, hr, harity⟩ := ht.live.rule
    rw [hname, h.wellFormed.find?_of_mem hmem] at hr
    exact Option.some.inj hr ▸ harity
  have hknown : o.rule ∈ p.rules.rules.take (o.index + 1) := by
    rw [(take_succ_of_getElem? hrule).1]
    exact List.mem_append_right _ List.mem_cons_self
  cases hunit : o.handle.shape.isUnit with
  | true =>
    have hshape : o.handle.shape = .unit := eq_of_beq hunit
    rw [Realization.store, hunit, if_pos rfl, hlengths, ht.describes.lengths_unit hshape]
    refine ⟨[.int 0], [.empty], rfl, rfl, .cons (fun I hI => ?_) .nil⟩
    have hzero : I.position? [.int 0] .empty = some [0] :=
      Interpretation.position?_cons_int ⟨Int.le_refl 0, by decide⟩ Interpretation.position?_nil
    exact ⟨hzero, (holds_callAtOrigin hI hknown ht.describes harity hshape hlengths hzero).value?_eq⟩
  | false =>
    have hshape : o.handle.shape ≠ .unit := fun heq => by
      rw [heq] at hunit
      cases hunit
    have hrank : o.rule.arity = o.handle.rank := harity.resolve_right fun heq => hshape heq.2
    have hlen : o.vars.length = t.lengths.length := (hvars hunit).trans ht.describes.length_eq.symm
    have hdomain : .box (o.vars.zip (t.lengths.map .fixed)) ∈ k.domains := by
      rw [h.lowers.domains, ← Shape.lengths?_eq_some.1 ht.describes.lengths]
      refine List.mem_append_right _ (List.mem_flatMap.2 ⟨o, ho, ?_⟩)
      rw [Realization.domains, hunit]
      exact List.mem_singleton_self _
    have hnodup : o.vars.Nodup :=
      (List.nodup_cons.1 ((List.nodup_flatMap.1 h.lowers.draws.nodup).1 o ho)).2
    have hboxed : Boxed k.domains .empty o.vars t.lengths := by
      refine boxed_region hlen hnodup (le_indexBound_of_mem ht.describes.pos hbound) (h.lowers.vars_nodup h.wellFormed)
        fun d hd => ?_
      rw [regionDomains, if_neg (by simpa using Handle.vars_ne_nil (hvars hunit)), List.mem_singleton] at hd
      exact hd ▸ hdomain
    rw [Realization.store, hunit, if_neg Bool.false_ne_true, hlengths]
    refine stores_box hnodup hlen hboxed hbound fun I hI index hindex => ?_
    have hbinds := Env.empty.binds_at hnodup (hlen.trans hindex.length_eq.symm)
    obtain ⟨htakes, helement⟩ := takes_of_inBox ht.describes harity hindex
    have hholds := hI.call o.rule hknown _ (hlengths.symm ▸ htakes)
    rw [helement, if_neg (by rw [hrank]; exact Nat.ne_of_gt o.handle.shape.rank_pos)] at hholds
    rw [Interpretation.value?_call_eq, Interpretation.position?_vars hbinds (hindex.bounded hbound)]
    exact hholds

theorem promises_store (h : p.Prepared account data outputs os k p') {o : Realization} (ho : o ∈ os) :
    k.Promises p'.backing account (o.index, o.store) o.array
      (boxUpdates (account o.rule.name).lengths (account o.rule.name).value?) := by
  refine ⟨account, p.rules.rules.take (o.index + 1), h.stores_realization ho, fun m hm => ?_⟩
  have hrule := (h.lowers.sound o ho).1
  obtain ⟨_, _, _, _, _, hnone⟩ := h.exists_requested ho
  have hanswers := h.lowers.answers h.wellFormed h.accounted hm
  have hunseen : p'.backing.arrayAt? o.rule.name o.index = none := by
    rw [BackingTable.arrayAt?, (h.lowers.find?_eq_some_iff h.wellFormed hnone).2 ⟨o, ho, rfl, rfl⟩]
    exact if_neg (Nat.not_succ_le_self o.index)
  refine ⟨fun r hr index htakes => ?_, hanswers.points⟩
  rw [(take_succ_of_getElem? hrule).1] at hr
  rcases List.mem_append.1 hr with hr | hr
  · exact hanswers.call r hr index htakes
  · obtain rfl := List.mem_singleton.1 hr
    exact h.lowers.holds_call h.wellFormed hrule hunseen hanswers (h.computes ho) htakes

theorem exists_promise (h : p.Prepared account data outputs os k p') {stop : Nat} (he : e ∈ agenda p.pending os stop) :
    ∃ d ∈ k.arrays, ∃ lengths updates, d.shape.lengths? = some lengths ∧
      k.Promises p'.backing account e d.name updates ∧ ∀ u ∈ updates, InBox u.1 lengths := by
  rcases (mem_agenda_iff.1 he).2 with he | ⟨o, ho, rfl⟩
  · obtain ⟨d, hd, lengths, updates, hlengths, hstores, hbox⟩ := h.accounted.pending e he
    refine ⟨d, ?_, lengths, updates, hlengths, h.promises_of_keeps he .self hstores, hbox⟩
    rw [h.lowers.arrays]
    exact List.mem_append_left _ hd
  · have hentry : o.entry ∈ p'.backing.entries := by
      rw [h.lowers.backing]
      exact List.mem_append_right _ (List.mem_map_of_mem ho)
    obtain ⟨d, hd, hname, hlengths⟩ := h.exists_declaration hentry
    have hpromises := h.promises_store ho
    rw [show o.array = d.name from hname.symm] at hpromises
    exact ⟨d, hd, _, _, hlengths, hpromises, fun u hu => inBox_of_mem_boxUpdates hu⟩

omit [ExactIndices α] in
theorem targets_store {o : Realization} {array : String} : o.store.targets array = true ↔ o.array = array := by
  unfold Realization.store
  split <;> simp [Statement.targets]

theorem promises_values (h : p.Prepared account data outputs os k p') {stop : Nat} (he : e ∈ agenda p.pending os stop)
    {entry : String × BackingEntry} (hentry : entry ∈ p'.backing.entries) {f : List Int → α}
    (hf : (account entry.1).value = some f) (htargets : e.2.targets entry.2.array = true) :
    e.1 < entry.2.visibleFrom ∧ k.Promises p'.backing account e entry.2.array
      (knownUpdates (boxUpdates (account entry.1).lengths f)) := by
  rw [h.lowers.backing] at hentry
  have hbox : ∀ lengths, boxUpdates lengths (fun index => some (f index)) = knownUpdates (boxUpdates lengths f) :=
    fun lengths => boxUpdates_known lengths lengths f
  rcases List.mem_append.1 hentry with hentry | hentry
  · rcases (mem_agenda_iff.1 he).2 with he | ⟨o, ho, rfl⟩
    · obtain ⟨hbefore, hstores⟩ := (h.accounted.filled entry hentry f hf).1 e he htargets
      rw [hbox] at hstores
      exact ⟨hbefore, h.promises_of_keeps he .self hstores⟩
    · have hdeclared := (h.wellFormed.backed entry hentry).2.1
      exact absurd (targets_store.1 htargets ▸ hdeclared) (h.lowers.array_unused h.wellFormed ho)
  · obtain ⟨o, ho, rfl⟩ := List.mem_map.1 hentry
    rcases (mem_agenda_iff.1 he).2 with he | ⟨o', ho', rfl⟩
    · obtain ⟨_, index, htarget, hdeclared, _⟩ := (h.wellFormed.pending e he).2.target
      obtain ⟨index', htarget'⟩ := Statement.targets_iff.1 htargets
      obtain ⟨rfl, _⟩ := Expr.load.inj (htarget.symm.trans htarget')
      exact absurd hdeclared (h.lowers.array_unused h.wellFormed ho)
    · obtain rfl := h.lowers.array_inj ho' ho (targets_store.1 htargets)
      have hpromises := h.promises_store ho
      have hvalue : boxUpdates (account o'.rule.name).lengths (account o'.rule.name).value? =
          knownUpdates (boxUpdates (account o'.rule.name).lengths f) := by
        rw [← hbox]
        exact boxUpdates_of_value hf
      rw [hvalue] at hpromises
      exact ⟨Nat.lt_succ_self _, hpromises⟩

omit [ExactIndices α] in
theorem input_of_untargeted (h : p.Prepared account data outputs os k p') {entry : String × BackingEntry}
    (hentry : entry ∈ p'.backing.entries) {f : List Int → α} (hf : (account entry.1).value = some f)
    (hnone : ∀ e ∈ agenda p.pending os (p.rules.size + 1), e.2.targets entry.2.array = false) :
    ∃ d ∈ k.arrays, d.name = entry.2.array ∧ ∀ index, InBox index (account entry.1).lengths →
      f index = inputElement data d (account entry.1).lengths index := by
  rw [h.lowers.backing] at hentry
  rw [h.lowers.arrays]
  rcases List.mem_append.1 hentry with hentry | hentry
  · have huntargeted : ∀ e ∈ p.pending, e.2.targets entry.2.array = false := fun e he =>
      hnone e (mem_agenda_iff.2 ⟨Nat.lt_succ_of_le (h.wellFormed.pending e he).1, .inl he⟩)
    obtain ⟨d, hd, hname, _, hvalues⟩ := (h.accounted.filled entry hentry f hf).2 huntargeted
    exact ⟨d, List.mem_append_left _ hd, hname, hvalues⟩
  · obtain ⟨o, ho, rfl⟩ := List.mem_map.1 hentry
    have hindex := (List.getElem?_eq_some_iff.1 (h.lowers.sound o ho).1).1
    have hfalse := hnone _ (mem_agenda_iff.2 ⟨Nat.lt_succ_of_lt hindex, .inr ⟨o, ho, rfl⟩⟩)
    rw [show o.store.targets o.entry.2.array = true from targets_store.2 rfl] at hfalse
    cases hfalse

end Plan.Prepared

end ArrayPlan
