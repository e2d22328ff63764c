import ArrayPlan.Proofs.Denotations
import Mathlib.Data.List.Induction

/-!
Explained scripts. While a script is carried out, its plan stays accounted for. One result may be written: neither
it nor what reads it is accounted for, and the history of its array holds what the writes so far have stored. All
other results have the elements that the script stands for.
-/

namespace ArrayPlan

variable {α : Type} [Scalar α]

/-- Handles of one array: either the same, or both backed by it. -/
structure Plan.Kin (p : Plan) (a : Handle) (t : Tensor α) (b : Handle) (u : Tensor α) : Prop where
  lengths : u.lengths = t.lengths
  elementType : u.elementType = t.elementType
  layout : u.layout = t.layout
  shared : b = a ∨ ∃ array, p.backing.array? a.rule = some array ∧ p.backing.array? b.rule = some array

/-- What is known of the results so far, when it is the one at place `h` that may be written. -/
structure Explained (ops : List (Operation Nat)) (h : Nat) (data : String → Array α) (s : Progress) (m : Meaning α)
    (account : Account α) : Prop where
  wellFormed : s.plan.WellFormed
  accounted : s.plan.Accounted account data
  size : m.tensors.length = s.results.length
  places : ∀ place a, s.find place = .ok a →
    ∃ t, m.find place = some t ∧ s.plan.Accounts account a t ∧ (¬ Reads ops h place → account.Knows a t)
  early : ∀ place a, s.find place = .ok a → place < h → ¬ Reads ops h place
  rooted : ∀ place a, s.find place = .ok a → Lineage ops h place → ∃ b, s.find h = .ok b
  subject : ∀ a t, s.find h = .ok a → m.find h = some t → s.plan.Subject account data a t m.updates
  kin : ∀ a t, s.find h = .ok a → m.find h = some t → ∀ place b u, Lineage ops h place → s.find place = .ok b →
    m.find place = some u → s.plan.Kin a t b u
  unwritten : (∀ a, s.find h ≠ .ok a) → m.updates = []

section Finding

omit [Scalar α] in
theorem Meaning.find_append (m : Meaning α) (t : Option (Tensor α)) (us : List (List (List Int × α))) (place : Nat) :
    (Meaning.mk (m.tensors ++ [t]) us).find place = if place = m.tensors.length then t else m.find place := by
  rw [Meaning.find, Meaning.find]
  by_cases hplace : place = m.tensors.length
  · subst hplace
    simp
  · rw [if_neg hplace]
    by_cases hlt : place < m.tensors.length
    · rw [List.getElem?_append_left hlt]
    · have hge : m.tensors.length < place := by omega
      rw [List.getElem?_eq_none (by rw [List.length_append, List.length_singleton]; omega),
        List.getElem?_eq_none (Nat.le_of_lt hge)]

namespace Progress

theorem find_eq_ok {s : Progress} {place : Nat} {a : Handle} :
    s.find place = .ok a ↔ s.results[place]? = some (some a) := by
  rw [find]
  split
  · rename_i b hb
    rw [hb]
    simp
  · rename_i hnot
    simp only [reduceCtorEq, false_iff]
    exact fun hget => hnot a hget

theorem lt_of_find {s : Progress} {place : Nat} {a : Handle} (hfind : s.find place = .ok a) : place < s.results.length :=
  (List.getElem?_eq_some_iff.1 (find_eq_ok.1 hfind)).1

theorem find_append (s : Progress) (r : Option Handle) (p : Plan) (place : Nat) {a : Handle} :
    (Progress.mk (s.results ++ [r]) p).find place = .ok a ↔
      s.find place = .ok a ∨ (place = s.results.length ∧ r = some a) := by
  rw [find_eq_ok, find_eq_ok]
  by_cases hlt : place < s.results.length
  · rw [List.getElem?_append_left hlt]
    constructor
    · exact .inl
    · rintro (hget | ⟨heq, _⟩)
      · exact hget
      · omega
  · rw [List.getElem?_append_right (by omega), List.getElem?_eq_none (l := s.results) (by omega)]
    constructor
    · intro hget
      have hzero : place - s.results.length = 0 := by
        have hlen := (List.getElem?_eq_some_iff.1 hget).1
        simp only [List.length_singleton] at hlen
        omega
      rw [hzero] at hget
      exact .inr ⟨by omega, Option.some.inj hget⟩
    · rintro (hget | ⟨rfl, rfl⟩)
      · cases hget
      · simp

end Progress

end Finding

section Steps

variable {ops : List (Operation Nat)} {h : Nat} {data : String → Array α} {s : Progress} {m : Meaning α}
  {account account' : Account α} {p p' : Plan} {a b : Handle} {t u : Tensor α}

omit [Scalar α] in
theorem Plan.Kin.extend (hk : p.Kin a t b u) (hext : p.Extends p') : p'.Kin a t b u where
  lengths := hk.lengths
  elementType := hk.elementType
  layout := hk.layout
  shared := by
    rcases hk.shared with hsame | ⟨array, ha, hb⟩
    · exact .inl hsame
    · exact .inr ⟨array, hext.array? ha, hext.array? hb⟩

theorem Plan.OnlyDraws.leaves (hd : p.OnlyDraws p') : p.Leaves p' := by
  refine ⟨hd.extends, ⟨[], ?_, by simp⟩, ⟨[], ?_, by simp⟩⟩
  · rw [hd.same, List.append_nil]
  · rw [hd.same, List.append_nil]

theorem Plan.OnlyDraws.accounted (hd : p.OnlyDraws p') (hacc : p.Accounted account data) : p'.Accounted account data := by
  rw [hd.same]
  exact ⟨hacc.arrays, hacc.rules, hacc.backed, hacc.pending, hacc.filled⟩

theorem Explained.accounts (he : Explained ops h data s m account) {place : Nat} (ha : s.find place = .ok a)
    (ht : m.find place = some t) : s.plan.Accounts account a t ∧ (¬ Reads ops h place → account.Knows a t) := by
  obtain ⟨t', ht', haccounts⟩ := he.places place a ha
  obtain rfl := Option.some.inj (ht'.symm.trans ht)
  exact haccounts

theorem Explained.refuse (he : Explained ops h data s m account) (hd : s.plan.OnlyDraws p') :
    Explained ops h data ⟨s.results ++ [none], p'⟩ ⟨m.tensors ++ [none], m.updates⟩ account := by
  have hfound : ∀ place a, (Progress.mk (s.results ++ [none]) p').find place = .ok a → s.find place = .ok a := by
    intro place a hfind
    rcases (s.find_append none p' place).1 hfind with hfind | ⟨_, hnone⟩
    · exact hfind
    · cases hnone
  have hkept : ∀ place a, s.find place = .ok a →
      (Meaning.mk (m.tensors ++ [none]) m.updates).find place = m.find place := by
    intro place a hfind
    have hlt := Progress.lt_of_find hfind
    rw [m.find_append, if_neg (by rw [he.size]; omega)]
  have hagrees : account.AgreesOn account s.plan.rules.rules := fun _ _ => rfl
  constructor
  case wellFormed =>
    exact hd.wellFormed he.wellFormed
  case accounted =>
    exact hd.accounted he.accounted
  case size =>
    simp [he.size]
  case places =>
    intro place a hfind
    have hold := hfound place a hfind
    obtain ⟨t, ht, haccounts, hknows⟩ := he.places place a hold
    exact ⟨t, (hkept place a hold).trans ht, haccounts.extend hd.extends hagrees, hknows⟩
  case early =>
    exact fun place a hfind => he.early place a (hfound place a hfind)
  case rooted =>
    intro place a hfind hl
    obtain ⟨b, hb⟩ := he.rooted place a (hfound place a hfind) hl
    exact ⟨b, (s.find_append none p' h).2 (.inl hb)⟩
  case subject =>
    intro a t hfind ht
    have hold := hfound h a hfind
    exact (he.subject a t hold ((hkept h a hold).symm.trans ht)).leave he.wellFormed hd.leaves hagrees
  case kin =>
    intro a t hfind ht place b u hl hb hu
    have hold := hfound h a hfind
    have hold' := hfound place b hb
    exact (he.kin a t hold ((hkept h a hold).symm.trans ht) place b u hl hold'
      ((hkept place b hold').symm.trans hu)).extend hd.extends
  case unwritten =>
    intro hnone
    refine he.unwritten fun a hfind => hnone a ?_
    exact (s.find_append none p' h).2 (.inl hfind)

theorem Explained.found (he : Explained ops h data s m account) {w : List (List (List Int × α))} {place : Nat} {a : Handle}
    (hfind : (Progress.mk (s.results ++ [some b]) p').find place = .ok a) :
    (s.find place = .ok a ∧ place ≠ s.results.length ∧
      (Meaning.mk (m.tensors ++ [some t]) w).find place = m.find place) ∨
    (place = s.results.length ∧ a = b ∧ (Meaning.mk (m.tensors ++ [some t]) w).find place = some t) := by
  rw [m.find_append, he.size]
  rcases (s.find_append (some b) p' place).1 hfind with hold | ⟨hplace, hb⟩
  · have hlt := Progress.lt_of_find hold
    have hne : place ≠ s.results.length := by omega
    exact .inl ⟨hold, hne, if_neg hne⟩
  · exact .inr ⟨hplace, (Option.some.inj hb).symm, if_pos hplace⟩

theorem Explained.add (he : Explained ops h data s m account) {op : Operation Nat}
    (hop : ops[s.results.length]? = some op) (hother : op.isWrite = false)
    (hrefs : ∀ r ∈ op.refs, ∃ a, s.find r = .ok a)
    (hadds : s.plan.Adds account data b p' t (∀ r ∈ op.refs, ∀ a t, s.find r = .ok a → m.find r = some t →
      account.Knows a t)) :
    ∃ account', Explained ops h data ⟨s.results ++ [some b], p'⟩ ⟨m.tensors ++ [some t], m.updates⟩ account' := by
  have hext := hadds.leaves.extends_
  have hlater : s.results.length < h ∨ s.results.length = h → ∀ r ∈ op.refs, ¬ Reads ops h r := by
    intro hle r hr
    obtain ⟨a, ha⟩ := hrefs r hr
    have hlt := Progress.lt_of_find ha
    exact he.early r a ha (by omega)
  have hnotReads : ∀ r ∈ op.refs, ¬ Reads ops h s.results.length → ¬ Reads ops h r :=
    fun r hr hnot hreads => hnot (.ref hop hr hreads)
  have hknown : (∀ r ∈ op.refs, ¬ Reads ops h r) →
      ∀ r ∈ op.refs, ∀ a t, s.find r = .ok a → m.find r = some t → account.Knows a t :=
    fun hnone r hr a t ha ht => (he.accounts ha ht).2 (hnone r hr)
  have hnotLineage : Lineage ops h s.results.length → s.results.length = h := by
    rintro (_ | ⟨hwrite, _⟩)
    · rfl
    · cases hop.symm.trans hwrite
      cases hother
  obtain ⟨c, hmeans, hnew, hsecret⟩ : ∃ c : Cell α,
      c.Means t (∀ r ∈ op.refs, ∀ a t, s.find r = .ok a → m.find r = some t → account.Knows a t) ∧
        (¬ Reads ops h s.results.length → c.value = some t.element) ∧
        (Reads ops h s.results.length → c.value = none) := by
    by_cases hreads : Reads ops h s.results.length
    · exact ⟨⟨t.lengths, none⟩, ⟨rfl, by simp⟩, fun hnot => absurd hreads hnot, fun _ => rfl⟩
    · have hk := hknown fun r hr => hnotReads r hr hreads
      exact ⟨_, means_element t hk, fun _ => rfl, fun hr => absurd hr hreads⟩
  obtain ⟨account', hagrees, rfl, hacc', _, hsubject⟩ := hadds.accounted c hmeans
  refine ⟨account', hadds.wellFormed, hacc', by simp [he.size], ?places, ?early, ?rooted, ?subject, ?kin, ?unwritten⟩
  case places =>
    intro place a hfind
    rcases he.found (t := t) (w := m.updates) hfind with ⟨hold, _, hsame⟩ | ⟨rfl, rfl, hnow⟩
    · obtain ⟨t', ht', haccounts, hknows⟩ := he.places place a hold
      refine ⟨t', hsame.trans ht', haccounts.extend hext hagrees, fun hnot => ?_⟩
      rw [Account.Knows, haccounts.live.cell_eq hagrees]
      exact hknows hnot
    · exact ⟨t, hnow, ⟨hadds.live, hadds.describes, hmeans.lengths⟩, hnew⟩
  case early =>
    intro place a hfind hlt hreads
    rcases (s.find_append (some b) p' place).1 hfind with hold | ⟨rfl, _⟩
    · exact he.early place a hold hlt hreads
    · cases hreads with
      | self => omega
      | ref hop' hr hreads =>
        cases hop.symm.trans hop'
        exact hlater (.inl hlt) _ hr hreads
  case rooted =>
    intro place a hfind hl
    rcases (s.find_append (some b) p' place).1 hfind with hold | ⟨rfl, _⟩
    · obtain ⟨b', hb'⟩ := he.rooted place a hold hl
      exact ⟨b', (s.find_append _ p' h).2 (.inl hb')⟩
    · rw [hnotLineage hl] at hfind
      exact ⟨a, hfind⟩
  case subject =>
    intro a t' hfind ht'
    rcases he.found (t := t) (w := m.updates) hfind with ⟨hold, _, hsame⟩ | ⟨hplace, rfl, hnow⟩
    · exact (he.subject a t' hold (hsame.symm.trans ht')).leave he.wellFormed hadds.leaves hagrees
    · obtain rfl : t = t' := Option.some.inj (hnow.symm.trans ht')
      have hnone : m.updates = [] := he.unwritten fun c hc => by
        have hlt := Progress.lt_of_find hc
        omega
      rw [hnone]
      exact hsubject (hknown (hlater (.inr hplace.symm))) (hsecret (hplace ▸ .self))
  case kin =>
    intro a t' hfind ht' place b' u hl hb' hu
    rcases he.found (t := t) (w := m.updates) hfind with ⟨hold, hne, hsame⟩ | ⟨hplace, rfl, hnow⟩
    · rcases he.found (t := t) (w := m.updates) hb' with ⟨hold', _, hsame'⟩ | ⟨rfl, _, _⟩
      · exact (he.kin a t' hold (hsame.symm.trans ht') place b' u hl hold' (hsame'.symm.trans hu)).extend hext
      · exact absurd (hnotLineage hl).symm hne
    · rcases he.found (t := t) (w := m.updates) hb' with ⟨hold', _, _⟩ | ⟨rfl, rfl, hnow'⟩
      · have hlt := Progress.lt_of_find hold'
        exact absurd hl.reads (he.early place b' hold' (by omega))
      · obtain rfl : t = t' := Option.some.inj (hnow.symm.trans ht')
        obtain rfl : t = u := Option.some.inj (hnow'.symm.trans hu)
        exact ⟨rfl, rfl, rfl, .inl rfl⟩
  case unwritten =>
    intro hnone
    exact he.unwritten fun a hfind => hnone a ((s.find_append _ p' h).2 (.inl hfind))

omit [Scalar α] in
theorem Tensor.updates_congr [Scalar α] {t t' : Tensor α} (hlengths : t.lengths = t'.lengths)
    (htype : t.elementType = t'.elementType) (entries : List (Index (Tensor α))) (u : Operand (Tensor α)) :
    t.updates entries u = t'.updates entries u := by
  rw [updates, updates, hlengths, htype]

theorem Plan.Kin.subject {t₀ : Tensor α} {us : List (List (List Int × α))} (hk : p.Kin a t₀ b t)
    (hs : p.Subject account data a t₀ us) : p.Subject account data b t₀ us := by
  rcases hk.shared with rfl | ⟨array, ha, hb⟩
  · exact hs
  · cases hs with
    | unwritten hnone => cases hnone.symm.trans ha
    | written array' ha' hwritten =>
      cases ha.symm.trans ha'
      exact .written array hb hwritten

theorem Explained.write [ExactIndices α] (he : Explained ops h data s m account) {place : Nat} {index : List (Index Nat)}
    {value : Operand Nat} {index' : List (Index Handle)} {value' : Operand Handle} {entries : List (Index (Tensor α))}
    {v : Operand (Tensor α)} {b' : Handle} (hop : ops[s.results.length]? = some (.write place index value))
    (hl : Lineage ops h place) (hb : s.find place = .ok b) (ht : m.find place = some t)
    (hbound : (elementCount t.lengths : Int) ≤ indexBound)
    (hgathers : List.Forall₂ (Index.Stands s.plan account) index' entries)
    (hstored : Operand.Stands s.plan account value' v)
    (hinside : ∀ t₀, m.find h = some t₀ → ∀ x ∈ t.updates entries v, InBox x.1 t₀.lengths) (hw : s.plan.Writes b index' value' b' p') :
    ∃ account', Explained ops h data ⟨s.results ++ [some b'], p'⟩
      ⟨m.tensors ++ [some (t.store (t.updates entries v))], m.updates ++ [t.updates entries v]⟩ account' := by
  obtain ⟨a, ha⟩ := he.rooted place b hb hl
  obtain ⟨t₀, ht₀, _, _⟩ := he.places h a ha
  have hkin := he.kin a t₀ ha ht₀ place b t hl hb ht
  have hadvances := hw.advances he.wellFormed
  have hext := hadvances.extends_
  have hupdates : t.updates entries v = t₀.updates entries v :=
    Tensor.updates_congr hkin.lengths hkin.elementType entries v
  have haccounts : s.plan.Accounts account b t₀ := by
    obtain ⟨hlive, hdescribes, hlengths⟩ := (he.accounts hb ht).1
    rw [hkin.lengths] at hlengths
    exact ⟨hlive, ⟨hkin.lengths ▸ hdescribes.lengths, hkin.elementType.symm.trans hdescribes.elementType,
      hkin.layout.symm.trans hdescribes.layout⟩, hlengths⟩
  have hasks := Plan.Asks.of_stands haccounts (hkin.lengths ▸ hbound) hgathers hstored
    fun x hx => hinside t₀ ht₀ x (hupdates ▸ hx)
  have hsubject := hkin.subject (he.subject a t₀ ha ht₀)
  obtain ⟨account', array, hagrees, _, hacc', haccounts', hb₁, hb₂, hhistory⟩ :=
    he.accounted.write he.wellFormed hw hasks hsubject.secret hsubject.secrets
  have hwritten := hhistory _ _ hsubject (Tensor.partialUpdates_known t₀ entries v)
  rw [← hupdates] at hwritten
  have ha₁ : p'.backing.array? a.rule = some array := by
    rcases hkin.shared with rfl | ⟨array', harray, harray'⟩
    · exact hb₁
    · rw [← hb₁, hext.array? harray, hext.array? harray']
  have hnew : p'.Kin a t₀ b' (t.store (t.updates entries v)) :=
    ⟨hkin.lengths, hkin.elementType, hkin.layout, .inr ⟨array, ha₁, hb₂⟩⟩
  have hreads : Reads ops h s.results.length := .ref hop List.mem_cons_self hl.reads
  have hlt := Progress.lt_of_find hb
  have hlate : ¬ s.results.length ≤ h := fun hle => he.early place b hb (by omega) hl.reads
  refine ⟨account', hadvances.wellFormed, hacc', by simp [he.size], ?places, ?early, ?rooted, ?subject, ?kin, ?unwritten⟩
  case places =>
    intro other c hfind
    rcases he.found (w := m.updates ++ [t.updates entries v]) hfind with ⟨hold, _, hsame⟩ | ⟨rfl, rfl, hnow⟩
    · obtain ⟨t', ht', haccounts, hknows⟩ := he.places other c hold
      refine ⟨t', hsame.trans ht', haccounts.extend hext hagrees, fun hnot => ?_⟩
      rw [Account.Knows, haccounts.live.cell_eq hagrees]
      exact hknows hnot
    · refine ⟨_, hnow, ⟨haccounts'.live, ?_, ?_⟩, fun hnot => absurd hreads hnot⟩
      · exact ⟨hkin.lengths ▸ haccounts'.describes.lengths, hkin.elementType.trans haccounts'.describes.elementType,
          hkin.layout.trans haccounts'.describes.layout⟩
      · exact haccounts'.lengths.trans hkin.lengths.symm
  case early =>
    intro other c hfind hlt'
    rcases (s.find_append (some b') p' other).1 hfind with hold | ⟨rfl, _⟩
    · exact he.early other c hold hlt'
    · omega
  case rooted =>
    intro _ _ _ _
    exact ⟨a, (s.find_append _ p' h).2 (.inl ha)⟩
  case subject =>
    intro c t' hfind ht'
    rcases he.found (w := m.updates ++ [t.updates entries v]) hfind with ⟨hold, _, hsame⟩ | ⟨hplace, _, _⟩
    · obtain rfl := Except.ok.inj (ha.symm.trans hold)
      obtain rfl := Option.some.inj (ht₀.symm.trans (hsame.symm.trans ht'))
      exact .written array ha₁ hwritten
    · omega
  case kin =>
    intro c t' hfind ht' other d w hl' hd hw'
    rcases he.found (w := m.updates ++ [t.updates entries v]) hfind with ⟨hold, _, hsame⟩ | ⟨hplace, _, _⟩
    · obtain rfl := Except.ok.inj (ha.symm.trans hold)
      obtain rfl := Option.some.inj (ht₀.symm.trans (hsame.symm.trans ht'))
      rcases he.found (w := m.updates ++ [t.updates entries v]) hd with ⟨hold', _, hsame'⟩ | ⟨_, rfl, hnow⟩
      · exact (he.kin a t₀ ha ht₀ other d w hl' hold' (hsame'.symm.trans hw')).extend hext
      · obtain rfl := Option.some.inj (hnow.symm.trans hw')
        exact hnew
    · omega
  case unwritten =>
    intro hnone
    exact absurd ((s.find_append _ p' h).2 (.inl ha)) (hnone a)

end Steps

/-- All results have fixed axes, and no more elements than there are exact indices. -/
def Progress.Sized (s : Progress) : Prop :=
  ∀ a ∈ s.handles, ∃ lengths, a.shape.lengths? = some lengths ∧ (elementCount lengths : Int) ≤ indexBound

/-- All writes that were accepted go through the result at place `h`, with values and positions that do not read it. -/
def Progress.WritesThrough (s : Progress) (ops : List (Operation Nat)) (h : Nat) : Prop :=
  ∀ place a index value, ops[place]? = some (.write a index value) → (∃ b, s.find place = .ok b) →
    Lineage ops h a ∧ ∀ r ∈ index.flatMap Index.refs ++ value.refs, ¬ Reads ops h r

/-- All positions that are written are inside the array at place `h`. -/
def Meaning.Inside (m : Meaning α) (h : Nat) : Prop :=
  ∀ t, m.find h = some t → ∀ us ∈ m.updates, ∀ u ∈ us, InBox u.1 t.lengths

section Running

namespace Progress

theorem step_results (s : Progress) (op : Operation Nat) : ∃ r, (s.step op).results = s.results ++ [r] := by
  rw [step]
  split
  · exact ⟨_, rfl⟩
  · exact ⟨_, rfl⟩

theorem run_results (s : Progress) (ops : List (Operation Nat)) : ∃ later, (s.run ops).results = s.results ++ later := by
  induction ops generalizing s with
  | nil => exact ⟨[], (List.append_nil _).symm⟩
  | cons op ops ih =>
    obtain ⟨r, hr⟩ := s.step_results op
    obtain ⟨later, hlater⟩ := ih (s.step op)
    exact ⟨r :: later, by rw [run, List.foldl_cons, ← run, hlater, hr, List.append_assoc]; rfl⟩

theorem mem_handles {s : Progress} {place : Nat} {a : Handle} (hfind : s.find place = .ok a) : a ∈ s.handles :=
  List.mem_filterMap.2 ⟨some a, List.mem_of_getElem? (find_eq_ok.1 hfind), rfl⟩

theorem find_run {s : Progress} {place : Nat} {a : Handle} (hfind : s.find place = .ok a) (ops : List (Operation Nat)) :
    (s.run ops).find place = .ok a := by
  obtain ⟨later, hlater⟩ := s.run_results ops
  rw [find_eq_ok] at hfind ⊢
  rw [hlater, List.getElem?_append_left (List.getElem?_eq_some_iff.1 hfind).1, hfind]

theorem run_extends {s : Progress} (hs : s.plan.Reachable s.handles) (ops : List (Operation Nat)) :
    s.plan.Extends (s.run ops).plan :=
  ((run_evolves ops s).invariant hs.wellFormed fun _ => hs.live).1

theorem step_reachable {s : Progress} (hs : s.plan.Reachable s.handles) (op : Operation Nat) :
    (s.step op).plan.Reachable (s.step op).handles := by
  obtain ⟨id, settings, hevolves⟩ := hs
  exact ⟨id, settings, hevolves.trans (s.step_evolves op)⟩

theorem step_result {s : Progress} (hs : s.plan.Reachable s.handles) (op : Operation Nat) :
    (∃ p', s.plan.OnlyDraws p' ∧ s.step op = ⟨s.results ++ [none], p'⟩) ∨
      ∃ op' b p', op.resolve s.find = .ok op' ∧ op'.perform.runOn s.plan = (.ok b, p') ∧
        s.step op = ⟨s.results ++ [some b], p'⟩ := by
  rw [step]
  cases hresolve : op.resolve s.find with
  | error e => exact .inl ⟨s.plan, .refl _, rfl⟩
  | ok op' =>
    have hlive : ∀ a ∈ op'.refs, a.plan = s.plan.id → s.plan.Live a := by
      intro a ha _
      obtain ⟨place, hplace⟩ := refs_resolve hresolve ha
      exact hs.live (mem_handles hplace)
    have houtcome := Plan.perform_outcome hs.wellFormed op' hlive
    unfold Build.Outcome at houtcome
    cases hrun : op'.perform.runOn s.plan with
    | mk outcome p' =>
      rw [hrun] at houtcome
      cases outcome with
      | error e => exact .inl ⟨p', houtcome, by simp only [hrun, Except.toOption]⟩
      | ok b => exact .inr ⟨op', b, p', rfl, hrun, by simp only [hrun, Except.toOption]⟩

end Progress

theorem Meaning.step_accepted (elementType : ElementType) (d : Nat → Array α) (m : Meaning α)
    (op : Operation Nat) : m.step elementType d (op, true) =
      ⟨m.tensors ++ [op.tensor? m.find elementType (d m.tensors.length)], m.updates ++ (op.updates? m.find).toList⟩ :=
  rfl

omit [Scalar α] in
theorem Meaning.find_of_prefix {m m' : Meaning α} {ts : List (Option (Tensor α))}
    (htensors : m'.tensors = m.tensors ++ ts) {place : Nat} {t : Tensor α} (ht : m.find place = some t) :
    m'.find place = some t := by
  rw [Meaning.find] at ht ⊢
  have hlt : place < m.tensors.length := by
    by_contra hge
    rw [List.getElem?_eq_none (by omega)] at ht
    cases ht
  rw [htensors, List.getElem?_append_left hlt]
  exact ht

variable [ExactIndices α] {ops : List (Operation Nat)} {h : Nat} {data : String → Array α} {s : Progress}
  {m : Meaning α} {account : Account α}

omit [ExactIndices α] in
theorem Explained.finds (he : Explained ops h data s m account) (hsized : s.Sized) :
    s.plan.Finds account s.find m.find := by
  intro place a hfind
  obtain ⟨t, ht, haccounts, _⟩ := he.places place a hfind
  obtain ⟨lengths, hlengths, hbound⟩ := hsized a (Progress.mem_handles hfind)
  obtain rfl := Option.some.inj (haccounts.describes.lengths.symm.trans hlengths)
  exact ⟨t, ht, haccounts, hbound⟩

theorem Explained.step (he : Explained ops h data s m account) (hreach : s.plan.Reachable s.handles)
    {op : Operation Nat} (hop : ops[s.results.length]? = some op) {elementType : ElementType}
    (htype : s.plan.settings.elementType = elementType) {d : Nat → Array α}
    (hd : ∀ a array, (s.step op).find s.results.length = .ok a → (s.step op).plan.backing.array? a.rule = some array →
      d s.results.length = data array)
    (hsized : (s.step op).Sized) (hthrough : (s.step op).WritesThrough ops h) {r : Option Handle}
    (hr : (s.step op).results = s.results ++ [r])
    (hinside : (m.step elementType d (op, r.isSome)).Inside h) :
    ∃ account', Explained ops h data (s.step op) (m.step elementType d (op, r.isSome)) account' := by
  have hsized' : s.Sized := by
    intro a ha
    refine hsized a ?_
    rw [Progress.handles, hr, List.filterMap_append]
    exact List.mem_append_left _ ha
  have hfinds := he.finds hsized'
  rcases Progress.step_result hreach op with ⟨p', hdraws, hstep⟩ | ⟨op', b, p', hresolve, hrun, hstep⟩
  · rw [hstep] at hr ⊢
    obtain rfl : none = r := by simpa using hr
    exact ⟨account, he.refuse hdraws⟩
  · rw [hstep] at hr hd hsized hthrough ⊢
    obtain rfl : some b = r := by simpa using hr
    have hnow : (Progress.mk (s.results ++ [some b]) p').find s.results.length = .ok b :=
      (s.find_append _ p' _).2 (.inr ⟨rfl, rfl⟩)
    obtain ⟨lengths, hlengths, hbound⟩ := hsized b (Progress.mem_handles hnow)
    by_cases hwrite : op.isWrite = true
    · obtain ⟨place, index, value, rfl⟩ : ∃ place index value, op = .write place index value := by
        cases op <;> simp_all [Operation.isWrite]
      obtain ⟨hl, hfree⟩ := hthrough s.results.length place index value hop ⟨b, hnow⟩
      obtain ⟨b₀, index', value', t, entries, u, hb₀, ht, hupdates, hgathers, hstored, hw⟩ :=
        exists_write he.wellFormed hfinds hresolve hrun fun r hr a t ha ht => (he.accounts ha ht).2 (hfree r hr)
      obtain ⟨t', ht', _, hbound'⟩ := hfinds place b₀ hb₀
      obtain rfl := Option.some.inj (ht.symm.trans ht')
      have hmeans : m.step elementType d (.write place index value, (some b).isSome) =
          ⟨m.tensors ++ [some (t.store (t.updates entries u))], m.updates ++ [t.updates entries u]⟩ := by
        have htensor : (Operation.write place index value).tensor? m.find elementType (d m.tensors.length) =
            some (t.store (t.updates entries u)) := by
          rw [Operation.tensor?, ht, hupdates]
          rfl
        rw [Option.isSome_some, Meaning.step_accepted, htensor, Operation.updates?, hupdates]
        rfl
      rw [hmeans] at hinside ⊢
      refine he.write hop hl hb₀ ht hbound' hgathers hstored (fun t₀ ht₀ => ?_) hw
      exact hinside t₀ (Meaning.find_of_prefix rfl ht₀) _ (by simp)
    · have hother : op.isWrite = false := by simpa using hwrite
      obtain ⟨t, ht, hadds⟩ := exists_adds he.wellFormed he.accounted hfinds hother hresolve hrun hlengths hbound
        fun array harray => hd b array hnow harray
      have hmeans : m.step elementType d (op, (some b).isSome) = ⟨m.tensors ++ [some t], m.updates⟩ := by
        have hnone : op.updates? m.find = none := by
          cases op <;> first | rfl | cases hother
        rw [htype] at ht
        rw [Option.isSome_some, Meaning.step_accepted, he.size, ht, hnone, Option.toList, List.append_nil]
      rw [hmeans]
      exact he.add hop hother (found_of_resolve hresolve) hadds

namespace Progress

theorem start_reachable (id : Nat) (settings : Settings) :
    (start (.empty id settings)).plan.Reachable (start (.empty id settings)).handles :=
  ⟨id, settings, .refl⟩

theorem mem_handles_run {s : Progress} {a : Handle} (ha : a ∈ s.handles) (ops : List (Operation Nat)) :
    a ∈ (s.run ops).handles := by
  obtain ⟨later, hlater⟩ := s.run_results ops
  rw [handles, hlater, List.filterMap_append]
  exact List.mem_append_left _ ha

end Progress

omit [Scalar α] in
theorem Explained.start [Scalar α] (ops : List (Operation Nat)) (h : Nat) (data : String → Array α) (id : Nat)
    (settings : Settings) :
    Explained ops h data (Progress.start (.empty id settings)) ⟨[], []⟩ fun _ => ⟨[], none⟩ := by
  have hnone : ∀ place a, (Progress.start (.empty id settings)).find place ≠ .ok a := by
    intro place a hfind
    simp [Progress.find, Progress.start] at hfind
  refine ⟨Plan.empty_wellFormed id settings, ?accounted, rfl, ?places, ?early, ?rooted, ?subject, ?kin, fun _ => rfl⟩
  case accounted =>
    constructor <;> simp [Progress.start, Plan.empty, RuleLog.empty, BackingTable.empty]
  case places =>
    exact fun place a hfind => absurd hfind (hnone place a)
  case early =>
    exact fun place a hfind => absurd hfind (hnone place a)
  case rooted =>
    exact fun place a hfind => absurd hfind (hnone place a)
  case subject =>
    exact fun a t hfind => absurd hfind (hnone h a)
  case kin =>
    exact fun a t hfind => absurd hfind (hnone h a)

end Running

end ArrayPlan
