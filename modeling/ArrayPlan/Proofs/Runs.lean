import ArrayPlan.Proofs.Executions
import ArrayPlan.Proofs.Stages

/-!
Runs of lowered plans. A kernel is executed statement by statement; before each of them, every array that the account
has the values of and that nothing to come stores into holds these values. So the whole execution succeeds, and in
the end all arrays that are accounted for are as the account says.
-/

namespace ArrayPlan

variable {α : Type} [Scalar α]

/-- The memory when some statements are still to be executed. -/
structure Kernel.Stage (k : Kernel) (t : BackingTable) (account : Account α) (todo : List (Nat × Statement))
    (m : Memory α) : Prop where
  fits : m.Fits k.arrays
  holds : ∀ entry ∈ t.entries, ∀ f, (account entry.1).value = some f →
    (∀ e ∈ todo, e.2.targets entry.2.array = false) →
      ∀ index, InBox index (account entry.1).lengths → m.load? entry.2.array index = some (f index)

/-- The second memory comes out of the first one by what a statement promises to store. -/
structure Kernel.Carries (k : Kernel) (t : BackingTable) (account : Account α) (e : Nat × Statement)
    (m m' : Memory α) : Prop where
  others : ∀ array, e.2.targets array = false → ∀ index, m'.load? array index = m.load? array index
  stored : ∀ array us, k.Promises t account e array (knownUpdates us) → (∀ u ∈ us, (m.load? array u.1).isSome) →
    ∀ g index, m.load? array index = some (g index) → m'.load? array index = some (storeElements g us index)

theorem Kernel.Promises.targets {k : Kernel} {t : BackingTable} {account : Account α} {e : Nat × Statement}
    {array : String} {updates : List (List Int × Option α)} (h : k.Promises t account e array updates) :
    e.2.targets array = true := by
  obtain ⟨_, _, hstores, _⟩ := h
  exact hstores.targets

namespace Plan.Prepared

variable [ExactIndices α] {p p' : Plan} {outputs : List Handle} {os : List Realization} {k : Kernel}
  {account : Account α} {data : String → Array α} {e : Nat × Statement} {done todo rest : List (Nat × Statement)}
  {m : Memory α}

omit [ExactIndices α] in
theorem exists_element (h : p.Prepared account data outputs os k p') (hfits : m.Fits k.arrays)
    {entry : String × BackingEntry} (hentry : entry ∈ p'.backing.entries) {index : List Int}
    (hindex : InBox index (account entry.1).lengths) : ∃ x, m.load? entry.2.array index = some x := by
  obtain ⟨d, hd, hname, hlengths⟩ := h.exists_declaration hentry
  exact hname ▸ hfits.isSome_load? hd hlengths hindex

theorem holds_of_stage (h : p.Prepared account data outputs os k p')
    (hsplit : agenda p.pending os (p.rules.size + 1) = done ++ e :: rest)
    (hstage : k.Stage p'.backing account (e :: rest) m) {array : String} (htargets : e.2.targets array = true)
    {m' : Memory α} (halters : m.Alters m' array) : m'.Holds p'.backing account e.1 := by
  have hdue : ∀ e' ∈ e :: rest, e' ∈ agenda p.pending os (p.rules.size + 1) := fun e' he' =>
    hsplit ▸ List.mem_append_right done he'
  have hlater : ∀ e' ∈ e :: rest, e.1 ≤ e'.1 := by
    have hsorted := agenda_sorted p.pending os (p.rules.size + 1)
    rw [hsplit] at hsorted
    intro e' he'
    rcases List.mem_cons.1 he' with rfl | he'
    · exact Nat.le_refl _
    · exact (List.pairwise_cons.1 (List.pairwise_append.1 hsorted).2.1).1 e' he'
  intro entry hentry hvisible index hindex
  obtain ⟨x, hx⟩ := h.exists_element (halters.fits hstage.fits) hentry hindex
  refine ⟨x, hx, fun f hf => ?_⟩
  have huntargeted : ∀ e' ∈ e :: rest, e'.2.targets entry.2.array = false := by
    intro e' he'
    by_contra htarget
    have hbefore := (h.promises_values (hdue e' he') hentry hf (by simpa using htarget)).1
    have hle := hlater e' he'
    omega
  have hne : entry.2.array ≠ array := fun heq => by
    rw [← heq, huntargeted e List.mem_cons_self] at htargets
    cases htargets
  rw [halters.elsewhere _ hne, hstage.holds entry hentry f hf huntargeted index hindex] at hx
  exact (Option.some.inj hx).symm

theorem exists_carries (h : p.Prepared account data outputs os k p')
    (hsplit : agenda p.pending os (p.rules.size + 1) = done ++ e :: rest)
    (hstage : k.Stage p'.backing account (e :: rest) m) :
    ∃ m', k.executeStatement .empty m (e.2.loadBacked p'.backing e.1) = .ok m' ∧
      k.Carries p'.backing account e m m' ∧ k.Stage p'.backing account rest m' := by
  have hdue : e ∈ agenda p.pending os (p.rules.size + 1) := hsplit ▸ List.mem_append_right done List.mem_cons_self
  have hexecute : ∀ array updates, k.Promises p'.backing account e array updates →
      (∀ u ∈ updates, (m.load? array u.1).isSome) →
      ∃ m' values, k.executeStatement .empty m (e.2.loadBacked p'.backing e.1) = .ok m' ∧ m.Alters m' array ∧
        List.Forall₂ Matches updates values ∧ ∀ g index, m.load? array index = some (g index) →
          m'.load? array index = some (storeElements g values index) := by
    intro array updates hpromises hinside
    have htargets := hpromises.targets
    obtain ⟨κ, rules, hstores, hanswers⟩ := hpromises
    refine h.lowers.execute h.wellFormed hstores (fun m' halters u hu => ?_) fun m' halters =>
      hanswers m' (h.holds_of_stage hsplit hstage htargets halters)
    rw [← Option.isSome_iff_exists, halters.isSome_load?]
    exact hinside u hu
  obtain ⟨d, hd, lengths, updates, hlengths, hpromises, hbox⟩ := h.exists_promise hdue
  obtain ⟨m', _, hm', halters, _, _⟩ := hexecute d.name updates hpromises fun u hu =>
    Option.isSome_iff_exists.2 (hstage.fits.isSome_load? hd hlengths (hbox u hu))
  have hcarries : k.Carries p'.backing account e m m' := by
    refine ⟨fun array hnot index => halters.elsewhere array (fun heq => ?_) index, fun array us hknown hinside => ?_⟩
    · rw [heq, hpromises.targets] at hnot
      cases hnot
    · have hmem : ∀ u ∈ knownUpdates us, (m.load? array u.1).isSome := by
        intro u hu
        obtain ⟨v, hv, rfl⟩ := List.mem_map.1 hu
        exact hinside v hv
      obtain ⟨m'', values, hm'', _, hmatches, hcontents⟩ := hexecute array _ hknown hmem
      obtain rfl : m' = m'' := Except.ok.inj (hm'.symm.trans hm'')
      rwa [eq_of_matches hmatches] at hcontents
  refine ⟨m', hm', hcarries, halters.fits hstage.fits, fun entry hentry f hf hnone index hindex => ?_⟩
  cases htargets : e.2.targets entry.2.array with
  | false =>
    rw [hcarries.others _ htargets]
    refine hstage.holds entry hentry f hf (fun e' he' => ?_) index hindex
    rcases List.mem_cons.1 he' with rfl | he'
    · exact htargets
    · exact hnone e' he'
  | true =>
    have hvalues := (h.promises_values hdue hentry hf htargets).2
    have hinside : ∀ u ∈ boxUpdates (account entry.1).lengths f, (m.load? entry.2.array u.1).isSome := fun u hu =>
      Option.isSome_iff_exists.2 (h.exists_element hstage.fits hentry (inBox_of_mem_boxUpdates hu))
    obtain ⟨x, hx⟩ := h.exists_element hstage.fits hentry hindex
    have hfilled := hcarries.stored entry.2.array _ hvalues hinside (fun _ => x) index hx
    rwa [storeElements_boxUpdates hindex] at hfilled

theorem exists_run (h : p.Prepared account data outputs os k p') {Inv : List (Nat × Statement) → Memory α → Prop}
    (hinv : ∀ e rest m m', k.Stage p'.backing account (e :: rest) m → k.Carries p'.backing account e m m' →
      Inv (e :: rest) m → Inv rest m')
    (hsplit : agenda p.pending os (p.rules.size + 1) = done ++ todo) (hstage : k.Stage p'.backing account todo m)
    (hm : Inv todo m) :
    ∃ m', (todo.map fun e => e.2.loadBacked p'.backing e.1).foldlM (k.executeStatement .empty) m = .ok m' ∧
      k.Stage p'.backing account [] m' ∧ Inv [] m' := by
  induction todo generalizing done m with
  | nil => exact ⟨m, rfl, hstage, hm⟩
  | cons e rest ih =>
    obtain ⟨m₁, hexecute, hcarries, hstage₁⟩ := h.exists_carries hsplit hstage
    have hsplit₁ : agenda p.pending os (p.rules.size + 1) = (done ++ [e]) ++ rest := by
      rw [hsplit, List.append_assoc]
      rfl
    obtain ⟨m', hrest, hend⟩ := ih hsplit₁ hstage₁ (hinv e rest m m₁ hstage hcarries hm)
    refine ⟨m', ?_, hend⟩
    rw [List.map_cons, List.foldlM_cons, hexecute]
    exact hrest

end Plan.Prepared

end ArrayPlan
