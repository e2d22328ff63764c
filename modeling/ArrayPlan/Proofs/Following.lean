import ArrayPlan.Proofs.Draft
import ArrayPlan.Proofs.Enumerating
import ArrayPlan.Proofs.Growth
import ArrayPlan.Proofs.Steps

/-!
Plans that follow a draft. Each value of the draft has a rule in the plan, in the same order; between them there may be
rules of the plan alone. Wherever calls of earlier rules are answered by the elements of their values, the body of a rule
has the elements of its value. What a plan appends leaves all of this as it is.
-/

namespace ArrayPlan

open Interpretation

class ExactOrigin (α : Type) [Scalar α] : Prop where
  toIndex_ofInt_zero : Scalar.toIndex (Scalar.ofInt 0 : α) = 0

/-- The indices at which values are asked for: numbers stand for them, and on an axis of length one there is the first
position only. -/
def Asked (α : Type) [Scalar α] (lengths : List Nat) (index : List Int) : Prop :=
  List.Forall₂ (fun n x => (n = 1 → x = 0) ∧ Scalar.toIndex (Scalar.ofInt x : α) = x) lengths index

/-- Numbers for the names of symbolic extents, and the names in use. A number stands for a word, up to the number of words:
so a name that stands for one need not have the number one, as a unit axis has. -/
structure Numbering where
  value : String → Nat
  used : String → Prop
  count : Nat → Nat
  count_one : count 1 = 1
  count_value : ∀ name, count (value name) = value name % Word.modulus

namespace Numbering

variable {N : Numbering}

/-- The axis is as long as its number says, or its name is in use. -/
def Covers (N : Numbering) : Extent → Prop
  | .fixed n => N.count n = n
  | .symbolic name => N.used name

def Uses (N : Numbering) (extents : List Extent) : Prop :=
  ∀ e ∈ extents, N.Covers e

theorem Covers.used {e : Extent} {name : String} (h : N.Covers e) (he : e = .symbolic name) : N.used name := by
  subst he
  exact h

theorem uses_unit : N.Uses Shape.unit.extents := by
  intro e he
  rw [List.mem_singleton.1 he]
  exact N.count_one

end Numbering

variable {α : Type} [Scalar α]

namespace Plan

/-- The bindings and the domains of a run. All domains of the plan are there; names in use are no index variables. -/
structure Surroundings (N : Numbering) (p : Plan) (parameters : Env) (domains : List Domain) : Prop where
  nodup : (domains.flatMap Domain.vars).Nodup
  mem : ∀ d ∈ p.domains, d ∈ domains
  free : ∀ v ∈ domains.flatMap Domain.vars, parameters.value? v = none
  bound : ∀ d ∈ domains, ∀ name ∈ d.parameters, parameters.value? name = some (Word.signed (N.value name))
  unowned : ∀ name, N.used name → name ∉ domains.flatMap Domain.vars

/-- How expressions are read at a registration index, which comes at a time of the draft. -/
structure Circumstances (p : Plan) (d : Draft α) (places : List Nat) (parameters : Env) (domains : List Domain)
    (time index : Nat) (I : Interpretation α) (o : Oracle α) : Prop where
  call : ∀ k v j r, k < time → d.values[k]? = some v → places[k]? = some j → p.rules.rules[j]? = some r →
    ∀ position, Asked α v.lengths position → I.call r.name (if r.params = [] then [] else position) = o.value k position
  /-- Rules that come after the last of these are inlined. -/
  inlined : ∀ j r, j < index → p.rules.rules[j]? = some r → (∀ k j', k < time → places[k]? = some j' → j' < j) →
    ∀ position, I.call r.name position =
      if r.params.length = position.length then I.value? r.body (parameters.at r.params position) else none
  load : ∀ n a, p.arrays[n]? = some a → I.load a.name = o.array n
  points : ∀ vars env, I.points vars env = (pointsOver domains vars env).toOption

/-- The rule at a place has the elements of a value. -/
structure WorksOut (N : Numbering) (p : Plan) (d : Draft α) (places : List Nat) (time index : Nat) (r : Rule)
    (v : Deferred α) : Prop where
  lengths : v.lengths ≠ []
  arity : r.params.length = v.lengths.length ∨ r.params = [] ∧ v.lengths = [1]
  element : ∀ parameters domains I o, p.Surroundings N parameters domains →
    p.Circumstances d places parameters domains time index I o → ∀ position, Asked α v.lengths position →
      I.value? r.body (parameters.at r.params position) = v.element o position

omit [Scalar α] in
structure Shows (p : Plan) (places : List Nat) (entry : String × BackingEntry) (h : Held) : Prop where
  rule : ∃ j r, places[h.value]? = some j ∧ p.rules.rules[j]? = some r ∧ r.name = entry.1
  array : ∃ a, p.arrays[h.array]? = some a ∧ a.name = entry.2.array
  after : ∃ j, places[h.after]? = some j ∧ entry.2.visibleFrom = j + 1

/-- A statement does what an errand does. -/
structure Expresses (N : Numbering) (p : Plan) (d : Draft α) (places : List Nat) (e : Nat × Statement) (x : Errand α) :
    Prop where
  due : x.due ≤ places.length
  time : ∀ k j, places[k]? = some j → (j < e.1 ↔ k < x.due)
  target : ∃ a index, e.2.target = .load a.name index ∧ p.arrays[x.array]? = some a ∧
    ∀ parameters domains, p.Surroundings N parameters domains →
      pointsOver domains e.2.within parameters = .ok (x.points.map (parameters.at e.2.within)) ∧
        ∀ I o, p.Circumstances d places parameters domains x.due e.1 I o → ∀ point ∈ x.points,
          I.position? index (parameters.at e.2.within point) = x.position o point ∧
            I.value? e.2.value (parameters.at e.2.within point) = x.element o point

/-- A handle is what an operation of the draft gave back. -/
structure Renders (N : Numbering) (p : Plan) (d : Draft α) (places : List Nat) (h : Handle) (r : Drafted) : Prop where
  live : p.Live h
  rule : ∃ j rule, places[r.value]? = some j ∧ p.rules.rules[j]? = some rule ∧ rule.name = h.rule
  value : ∃ v, d.values[r.value]? = some v ∧ v.lengths = r.lengths
  lengths : h.shape.extents.map (Extent.under N.value) = r.lengths
  elementType : h.elementType = r.elementType
  layout : (∀ e ∈ h.shape.extents, ∃ n, e = .fixed n) → h.layout = r.layout
  used : N.Uses h.shape.extents

def Measures (N : Numbering) (a : Declaration) (lengths : List Nat) : Prop :=
  a.shape.extents.map (Extent.under N.value) = lengths ∧ N.Uses a.shape.extents

structure Follows (N : Numbering) (p : Plan) (d : Draft α) (places : List Nat) : Prop where
  wellFormed : p.WellFormed
  isOpen : p.finalized = false
  count : places.length = d.values.length
  increasing : places.Pairwise (· < ·)
  placed : ∀ j ∈ places, j < p.rules.size
  values : ∀ k j r v, places[k]? = some j → p.rules.rules[j]? = some r → d.values[k]? = some v →
    p.WorksOut N d places k j r v
  arrays : List.Forall₂ (Measures N) p.arrays d.arrays
  held : List.Forall₂ (p.Shows places) p.backing.entries d.held
  queue : List.Forall₂ (p.Expresses N d places) p.pending d.queue
  domains : ∀ a ∈ p.domains, ∀ name ∈ a.parameters, N.used name

/-- A plan and its draft, and what they have become by appending. -/
structure Outgrown (p : Plan) (d : Draft α) (places : List Nat) (p' : Plan) (d' : Draft α) (places' : List Nat) : Prop where
  plan : p.Extends p'
  values : ∃ later, d'.values = d.values ++ later
  arrays : ∃ later, d'.arrays = d.arrays ++ later
  places : ∃ later, places' = places ++ later ∧ ∀ j ∈ later, p.rules.size ≤ j

omit [Scalar α] in
theorem getElem?_of_append {β : Type} {xs ys : List β} {k : Nat} {x : β} (h : ∃ later, ys = xs ++ later)
    (hx : xs[k]? = some x) : ys[k]? = some x := by
  obtain ⟨later, rfl⟩ := h
  rw [List.getElem?_append_left (List.getElem?_eq_some_iff.1 hx).1, hx]

omit [Scalar α] in
theorem getElem?_of_append_left {β : Type} {xs ys : List β} {k : Nat} {x : β} (h : ∃ later, ys = xs ++ later)
    (hk : k < xs.length) (hx : ys[k]? = some x) : xs[k]? = some x := by
  obtain ⟨later, rfl⟩ := h
  rwa [List.getElem?_append_left hk] at hx

namespace Outgrown

variable {N : Numbering} {p p' : Plan} {d d' : Draft α} {places places' : List Nat} {parameters : Env}
  {domains : List Domain} {time index : Nat} {I : Interpretation α} {o : Oracle α}

omit [Scalar α] in
theorem refl (p : Plan) (d : Draft α) (places : List Nat) : Outgrown p d places p d places :=
  ⟨.refl p, ⟨[], (List.append_nil _).symm⟩, ⟨[], (List.append_nil _).symm⟩, [], (List.append_nil _).symm, by simp⟩

variable (hg : Outgrown p d places p' d' places')

include hg

omit [Scalar α] in
theorem places_eq : ∃ later, places' = places ++ later := by
  obtain ⟨later, h, _⟩ := hg.places
  exact ⟨later, h⟩

omit [Scalar α] in
theorem surroundings (h : p'.Surroundings N parameters domains) : p.Surroundings N parameters domains := by
  obtain ⟨later, hlater⟩ := hg.plan.domains
  exact { h with mem := fun a ha => h.mem a (hlater ▸ List.mem_append_left _ ha) }

theorem circumstances (htime : time ≤ places.length)
    (h : p'.Circumstances d' places' parameters domains time index I o) :
    p.Circumstances d places parameters domains time index I o where
  call k v j r hk hv hj hr :=
    h.call k v j r hk (getElem?_of_append hg.values hv) (getElem?_of_append hg.places_eq hj)
      (getElem?_of_append hg.plan.rules hr)
  inlined j r hj hr hafter := by
    refine h.inlined j r hj (getElem?_of_append hg.plan.rules hr) fun k j' hk hj' => hafter k j' hk ?_
    exact getElem?_of_append_left hg.places_eq (Nat.lt_of_lt_of_le hk htime) hj'
  load n a ha := h.load n a (getElem?_of_append hg.plan.arrays ha)
  points := h.points

theorem worksOut {r : Rule} {v : Deferred α} (htime : time ≤ places.length) (h : p.WorksOut N d places time index r v) :
    p'.WorksOut N d' places' time index r v where
  lengths := h.lengths
  arity := h.arity
  element parameters domains I o hs hc :=
    h.element parameters domains I o (hg.surroundings hs) (hg.circumstances htime hc)

omit [Scalar α] in
theorem shows {entry : String × BackingEntry} {x : Held} (h : p.Shows places entry x) : p'.Shows places' entry x where
  rule := by
    obtain ⟨j, r, hj, hr, hname⟩ := h.rule
    exact ⟨j, r, getElem?_of_append hg.places_eq hj, getElem?_of_append hg.plan.rules hr, hname⟩
  array := by
    obtain ⟨a, ha, hname⟩ := h.array
    exact ⟨a, getElem?_of_append hg.plan.arrays ha, hname⟩
  after := by
    obtain ⟨j, hj, hvisible⟩ := h.after
    exact ⟨j, getElem?_of_append hg.places_eq hj, hvisible⟩

theorem expresses {e : Nat × Statement} {x : Errand α} (hkey : e.1 ≤ p.rules.size) (h : p.Expresses N d places e x) :
    p'.Expresses N d' places' e x where
  due := by
    obtain ⟨later, hlater⟩ := hg.places_eq
    rw [hlater, List.length_append]
    exact Nat.le_add_right_of_le h.due
  time k j hj := by
    obtain ⟨later, rfl, hlate⟩ := hg.places
    rcases Nat.lt_or_ge k places.length with hk | hk
    · exact h.time k j (getElem?_of_append_left ⟨later, rfl⟩ hk hj)
    · rw [List.getElem?_append_right hk] at hj
      have hplace := hlate j (List.mem_of_getElem? hj)
      have hdue := h.due
      exact iff_of_false (by omega) (by omega)
  target := by
    obtain ⟨a, index, htarget, ha, hall⟩ := h.target
    refine ⟨a, index, htarget, getElem?_of_append hg.plan.arrays ha, fun parameters domains hs => ?_⟩
    obtain ⟨hpoints, hvalues⟩ := hall parameters domains (hg.surroundings hs)
    exact ⟨hpoints, fun I o hc => hvalues I o (hg.circumstances h.due hc)⟩

omit [Scalar α] in
theorem renders {h : Handle} {r : Drafted} (hr : p.Renders N d places h r) : p'.Renders N d' places' h r where
  live := hg.plan.live hr.live
  rule := by
    obtain ⟨j, rule, hj, hrule, hname⟩ := hr.rule
    exact ⟨j, rule, getElem?_of_append hg.places_eq hj, getElem?_of_append hg.plan.rules hrule, hname⟩
  value := by
    obtain ⟨v, hv, hlengths⟩ := hr.value
    exact ⟨v, getElem?_of_append hg.values hv, hlengths⟩
  lengths := hr.lengths
  elementType := hr.elementType
  layout := hr.layout
  used := hr.used

end Outgrown

theorem Follows.extend {N : Numbering} {p p' : Plan} {d d' : Draft α} {places js : List Nat} (hf : p.Follows N d places)
    (hp' : p'.WellFormed) (hg : Outgrown p d places p' d' (places ++ js))
    (hcount : (places ++ js).length = d'.values.length) (hjs : js.Pairwise (· < ·)) (hplaced : ∀ j ∈ js, j < p'.rules.size)
    (hvalues : ∀ k j r v, places.length ≤ k → (places ++ js)[k]? = some j → p'.rules.rules[j]? = some r →
      d'.values[k]? = some v → p'.WorksOut N d' (places ++ js) k j r v)
    (harrays : ∃ as ls, p'.arrays = p.arrays ++ as ∧ d'.arrays = d.arrays ++ ls ∧ List.Forall₂ (Measures N) as ls)
    (hheld : ∃ entries hs, p'.backing.entries = p.backing.entries ++ entries ∧ d'.held = d.held ++ hs ∧
      List.Forall₂ (p'.Shows (places ++ js)) entries hs)
    (hqueue : ∃ es xs, p'.pending = p.pending ++ es ∧ d'.queue = d.queue ++ xs ∧
      List.Forall₂ (p'.Expresses N d' (places ++ js)) es xs)
    (hdomains : ∃ ds, p'.domains = p.domains ++ ds ∧ ∀ a ∈ ds, ∀ name ∈ a.parameters, N.used name) :
    p'.Follows N d' (places ++ js) where
  wellFormed := hp'
  isOpen := hg.plan.finalized.trans hf.isOpen
  count := hcount
  increasing := by
    obtain ⟨later, hlater, hlate⟩ := hg.places
    obtain rfl := List.append_cancel_left hlater
    exact List.pairwise_append.2 ⟨hf.increasing, hjs, fun j hj j' hj' => Nat.lt_of_lt_of_le (hf.placed j hj) (hlate j' hj')⟩
  placed j hj := by
    rcases List.mem_append.1 hj with hj | hj
    · exact Nat.lt_of_lt_of_le (hf.placed j hj) hg.plan.size_le
    · exact hplaced j hj
  values k j r v hj hr hv := by
    rcases Nat.lt_or_ge k places.length with hk | hk
    · have hj' : places[k]? = some j := getElem?_of_append_left hg.places_eq hk hj
      refine hg.worksOut (Nat.le_of_lt hk) (hf.values k j r v hj' ?_ ?_)
      · exact getElem?_of_append_left hg.plan.rules (hf.placed j (List.mem_of_getElem? hj')) hr
      · exact getElem?_of_append_left hg.values (hf.count ▸ hk) hv
    · exact hvalues k j r v hk hj hr hv
  arrays := by
    obtain ⟨as, ls, has, hls, hnew⟩ := harrays
    rw [has, hls]
    exact List.rel_append hf.arrays hnew
  held := by
    obtain ⟨entries, hs, hentries, hhs, hnew⟩ := hheld
    rw [hentries, hhs]
    exact List.rel_append (hf.held.imp fun _ _ => hg.shows) hnew
  queue := by
    obtain ⟨es, xs, hes, hxs, hnew⟩ := hqueue
    rw [hes, hxs]
    refine List.rel_append ?_ hnew
    refine List.forall₂_iff_get.2 ⟨hf.queue.length_eq, fun i hi hi' => ?_⟩
    exact hg.expresses (hf.wellFormed.pending _ (List.get_mem _ ⟨i, hi⟩)).1 (List.forall₂_iff_get.1 hf.queue |>.2 i hi hi')
  domains a ha name hname := by
    obtain ⟨ds, hds, hnew⟩ := hdomains
    rcases List.mem_append.1 (hds ▸ ha) with ha | ha
    · exact hf.domains a ha name hname
    · exact hnew a ha name hname

theorem Follows.alone {N : Numbering} {p p' : Plan} {d : Draft α} {places : List Nat} (hf : p.Follows N d places)
    (hp' : p'.WellFormed) (hextends : p.Extends p') (harrays : p'.arrays = p.arrays)
    (hbacking : p'.backing.entries = p.backing.entries) (hpending : p'.pending = p.pending)
    (hdomains : p'.domains = p.domains) (results : List Drafted) :
    p'.Follows N { d with results } places ∧ Outgrown p d places p' { d with results } places := by
  have hg : Outgrown p d places p' { d with results } places :=
    ⟨hextends, ⟨[], (List.append_nil _).symm⟩, ⟨[], (List.append_nil _).symm⟩, [], (List.append_nil _).symm, by simp⟩
  refine ⟨?_, hg⟩
  rw [← List.append_nil places] at hg ⊢
  rw [List.append_nil] at hg
  refine hf.extend hp' (by simpa using hg) ?_ .nil (by simp) ?_ ⟨[], [], ?_⟩ ⟨[], [], ?_⟩ ⟨[], [], ?_⟩ ⟨[], ?_⟩
  · rw [List.append_nil, hf.count]
  · intro k j rule v hk hj
    rw [List.append_nil, List.getElem?_eq_none hk] at hj
    cases hj
  · exact ⟨harrays.trans (List.append_nil _).symm, (List.append_nil _).symm, .nil⟩
  · exact ⟨hbacking.trans (List.append_nil _).symm, (List.append_nil _).symm, .nil⟩
  · exact ⟨hpending.trans (List.append_nil _).symm, (List.append_nil _).symm, .nil⟩
  · exact ⟨hdomains.trans (List.append_nil _).symm, by simp⟩

end Plan

end ArrayPlan
