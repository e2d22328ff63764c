import ArrayPlan.Proofs.Drafting
import ArrayPlan.Proofs.Schedule

/-!
Lowered plans that follow a draft. A lowered plan gives an array to each requested value that none held; with these, what a
kernel reads at a registration index is what the draft says at the time of that index.
-/

namespace ArrayPlan

open Interpretation

variable {α : Type} [Scalar α]

/-- A buffer for each declared array, and the memory that gives it to the array. -/
structure Kernel.Mirrors (k : Kernel) (m : Memory α) (buffers : List (Buffer α)) : Prop where
  length : buffers.length = k.arrays.length
  buffer : ∀ (n : Nat) (a : Declaration), k.arrays[n]? = some a → m.buffer? a.name = buffers[n]?

def Concurs (places : List Nat) (time index : Nat) : Prop :=
  ∀ k j, places[k]? = some j → (j < index ↔ k < time)

namespace Draft

variable {values : List (Deferred α)} {held : List Held} {array : Nat → List Int → Option α}

omit [Scalar α] in
theorem worked_of_lt {value time : Nat} (hlt : value < time) (index : List Int) :
    worked values held array time value index =
      (values[value]?).bind fun v => v.element (oracleAt values held array value) index := by
  induction time with
  | zero => exact absurd hlt (Nat.not_lt_zero _)
  | succ time ih =>
    rw [worked]
    split
    · rename_i hlast
      rw [hlast]
      rfl
    · rename_i hne
      exact ih (by omega)

omit [Scalar α] in
theorem oracleAt_of_seen {value time n : Nat} (hseen : seen? held value time = some n) (index : List Int) :
    (oracleAt values held array time).value value index = array n index := by
  simp only [oracleAt, hseen]

omit [Scalar α] in
theorem oracleAt_of_unseen {value time : Nat} (hunseen : seen? held value time = none) (hlt : value < time)
    (index : List Int) : (oracleAt values held array time).value value index =
      (values[value]?).bind fun v => v.element (oracleAt values held array value) index := by
  simp only [oracleAt, hunseen]
  exact worked_of_lt hlt index

end Draft

namespace Kernel

variable {k : Kernel} {m : Memory α} {buffers : List (Buffer α)}

theorem Mirrors.load? (h : k.Mirrors m buffers) {n : Nat} {a : Declaration} (ha : k.arrays[n]? = some a)
    (index : List Int) : m.load? a.name index = Draft.elementIn buffers n index := by
  have hbuffer := h.buffer n a ha
  unfold Draft.elementIn
  cases hb : buffers[n]? with
  | none => exact Memory.load?_eq_none (hbuffer.trans hb) index
  | some b => exact Memory.load?_eq_of_buffer? (hbuffer.trans hb) index

theorem readingAt_congr {t : BackingTable} {i j : Nat} (hsame : ∀ rule, t.arrayAt? rule i = t.arrayAt? rule j)
    (parameters : Env) : k.readingAt parameters t m i = k.readingAt parameters t m j := by
  simp only [readingAt, redirect, hsame]

/-- Point by point, a statement stores what an errand says, wherever the buffers are those of the memory. -/
def Does (k : Kernel) (parameters : Env) (t : BackingTable) (values : List (Deferred α)) (held : List Held)
    (e : Nat × Statement) (x : Errand α) : Prop :=
  ∃ a index envs, e.2.target = .load a.name index ∧ k.arrays[x.array]? = some a ∧
    pointsOver k.domains e.2.within parameters = .ok envs ∧
    List.Forall₂ (fun env point => ∀ m buffers, k.Mirrors m buffers →
      (k.readingAt parameters t m e.1).position? index env =
          x.position (Draft.oracleAt values held (Draft.elementIn buffers) x.due) point ∧
        (k.readingAt parameters t m e.1).value? e.2.value env =
          x.element (Draft.oracleAt values held (Draft.elementIn buffers) x.due) point) envs x.points

end Kernel

namespace Plan

variable {N : Numbering} {p q : Plan} {d : Draft α} {places : List Nat} {outputs : List Handle} {os : List Realization}
  {k : Kernel} {parameters : Env} {new : List (Nat × Nat)}

/-- A lowered plan that followed a draft, with the values and the numbers of the arrays that were given. -/
structure Enacts (N : Numbering) (p : Plan) (d : Draft α) (places : List Nat) (outputs : List Handle)
    (os : List Realization) (k : Kernel) (q : Plan) (parameters : Env) (new : List (Nat × Nat)) : Prop where
  follows : p.Follows N d places
  lowers : p.Lowers outputs os k q
  surroundings : p.Surroundings N parameters k.domains
  renders : ∀ h ∈ outputs, ∃ r, p.Renders N d places h r
  new : List.Forall₂ (fun o n => places[n.1]? = some o.index ∧ k.arrays[n.2]? = some o.declaration) os new

theorem Follows.concurs (hf : p.Follows N d places) {time index : Nat} (hplace : places[time]? = some index) :
    Concurs places time index := by
  intro k j hj
  obtain ⟨hk, rfl⟩ := List.getElem?_eq_some_iff.1 hj
  obtain ⟨htime, rfl⟩ := List.getElem?_eq_some_iff.1 hplace
  have hmono := List.pairwise_iff_getElem.1 hf.increasing
  refine ⟨fun hlt => ?_, hmono k time hk htime⟩
  by_contra hle
  rcases Nat.eq_or_lt_of_le (Nat.le_of_not_lt hle) with rfl | hgt
  · exact Nat.lt_irrefl _ hlt
  · exact Nat.lt_asymm hlt (hmono time k htime hk hgt)

omit [Scalar α] in
theorem Shows.visible_iff {entry : String × BackingEntry} {x : Held} {time index : Nat} (h : p.Shows places entry x)
    (htime : Concurs places time index) : entry.2.visibleFrom ≤ index ↔ x.after < time := by
  obtain ⟨j, hj, hvisible⟩ := h.after
  rw [hvisible, Nat.succ_le_iff]
  exact htime _ _ hj

section Arguments

variable {value j : Nat} {r : Rule} {v : Deferred α} {position : List Int} (hw : p.WorksOut N d places value j r v)
  (hasked : Asked α v.lengths position)

include hw hasked

theorem WorksOut.arguments : r.params.length = (if r.params = [] then [] else position).length ∧
    r.params.zip (if r.params = [] then [] else position) = r.params.zip position := by
  by_cases hnil : r.params = []
  · rw [if_pos hnil, hnil]
    exact ⟨rfl, rfl⟩
  · rw [if_neg hnil, hasked.length_eq]
    exact ⟨hw.arity.resolve_right fun hscalar => hnil hscalar.1, rfl⟩

theorem WorksOut.loadedIndex_eq [ExactOrigin α] :
    loadedIndex α (if r.params = [] then [] else position) = position := by
  by_cases hnil : r.params = []
  · rw [if_pos hnil, loadedIndex, if_pos rfl, ExactOrigin.toIndex_ofInt_zero]
    rcases hw.arity with harity | ⟨_, hunit⟩
    · rw [hnil] at harity
      exact absurd (List.length_eq_zero_iff.1 harity.symm) hw.lengths
    · rw [hunit] at hasked
      exact hasked.of_unit.symm
  · have hne : position ≠ [] := fun hzero => hw.lengths (List.length_eq_zero_iff.1 (by rw [← hasked.length_eq, hzero]; rfl))
    rw [if_neg hnil, loadedIndex, if_neg hne]

end Arguments

namespace Enacts

variable {m : Memory α} {buffers : List (Buffer α)} {time index : Nat}

section Holding

variable (h : p.Enacts N d places outputs os k q parameters new)

include h

theorem extends_arrays {n : Nat} {a : Declaration} (ha : p.arrays[n]? = some a) : k.arrays[n]? = some a := by
  rw [h.lowers.arrays]
  exact getElem?_of_append ⟨_, rfl⟩ ha

theorem held : List.Forall₂ (Shows { p with arrays := k.arrays } places) q.backing.entries (d.holding new) := by
  rw [h.lowers.backing, Draft.holding]
  have hold : ∀ entry x, p.Shows places entry x → Shows { p with arrays := k.arrays } places entry x := by
    intro entry x hshows
    obtain ⟨a, ha, hname⟩ := hshows.array
    exact ⟨hshows.rule, ⟨a, h.extends_arrays ha, hname⟩, hshows.after⟩
  refine List.rel_append (h.follows.held.imp hold) ?_
  rw [List.forall₂_map_left_iff, List.forall₂_map_right_iff]
  refine ((List.forall₂_and_left _ _).2 ⟨fun o ho => (h.lowers.sound o ho).1, h.new⟩).imp fun o n ⟨hrule, hplace, harray⟩ => ?_
  exact ⟨⟨o.index, o.rule, hplace, hrule, rfl⟩, ⟨o.declaration, harray, rfl⟩, o.index, hplace, rfl⟩

theorem find?_eq {value j : Nat} {r : Rule} (hj : places[value]? = some j) (hr : p.rules.rules[j]? = some r) :
    (q.backing.find? r.name = none ∧ (d.holding new).find? (fun x => x.value = value) = none) ∨
      ∃ entry x, Shows { p with arrays := k.arrays } places (r.name, entry) x ∧ q.backing.find? r.name = some entry ∧
        (d.holding new).find? (fun x => x.value = value) = some x := by
  rcases @lookup_eq_of_forall₂ _ _ _ r.name value h.held fun e x hshows => by
    obtain ⟨j', r', hj', hr', hname⟩ := hshows.rule
    rw [← hname]
    exact h.follows.name_eq_iff hj hr hj' hr' with hnone | ⟨⟨_, entry⟩, x, hshows, hname, _, hlookup, hfind⟩
  · exact .inl hnone
  · cases hname
    exact .inr ⟨entry, x, hshows, hlookup, hfind⟩

theorem arrayAt?_eq (htime : Concurs places time index) {value j : Nat} {r : Rule} (hj : places[value]? = some j)
    (hr : p.rules.rules[j]? = some r) :
    (q.backing.arrayAt? r.name index = none ∧ Draft.seen? (d.holding new) value time = none) ∨
      ∃ n a, k.arrays[n]? = some a ∧ q.backing.arrayAt? r.name index = some a.name ∧
        Draft.seen? (d.holding new) value time = some n := by
  unfold BackingTable.arrayAt? Draft.seen?
  rcases h.find?_eq hj hr with ⟨hnone, hnone'⟩ | ⟨entry, x, hshows, hfind, hfind'⟩
  · rw [hnone, hnone']
    exact .inl ⟨rfl, rfl⟩
  · obtain ⟨a, ha, hname⟩ := hshows.array
    have hvisible := hshows.visible_iff htime
    rw [hfind, hfind']
    dsimp only [Option.bind_some]
    by_cases hafter : x.after < time
    · rw [if_pos (hvisible.2 hafter), if_pos hafter]
      exact .inr ⟨x.array, a, ha, congrArg some hname.symm, rfl⟩
    · rw [if_neg (mt hvisible.1 hafter), if_neg hafter]
      exact .inl ⟨rfl, rfl⟩

theorem exists_shown {rule : String} {entry : BackingEntry} (hfind : q.backing.find? rule = some entry) :
    ∃ x, Shows { p with arrays := k.arrays } places (rule, entry) x := by
  obtain ⟨before, after, hsplit, _⟩ := List.lookup_eq_some_iff.1 hfind
  have hmem : (rule, entry) ∈ q.backing.entries := by simp [hsplit]
  obtain ⟨i, hi, hget⟩ := List.mem_iff_getElem.1 hmem
  have hheld := h.held
  have hi' : i < (d.holding new).length := hheld.length_eq ▸ hi
  have hshows := hheld.get hi hi'
  rw [List.get_eq_getElem, hget] at hshows
  exact ⟨_, hshows⟩

theorem arrayAt?_eq_none (htime : Concurs places time index) {j : Nat} {r : Rule} (hj : j < index)
    (hr : p.rules.rules[j]? = some r) (hlast : ∀ k j', k < time → places[k]? = some j' → j' < j) (i : Nat) :
    q.backing.arrayAt? r.name i = none := by
  unfold BackingTable.arrayAt?
  cases hfind : q.backing.find? r.name with
  | none => rfl
  | some entry =>
    obtain ⟨x, hshows⟩ := h.exists_shown hfind
    obtain ⟨j', r', hj', hr', hname⟩ := hshows.rule
    obtain rfl := h.follows.wellFormed.index_inj hr' hr hname
    exact absurd (hlast _ _ ((htime _ _ hj').1 hj) hj') (Nat.lt_irrefl _)

theorem arrayAt?_congr (htime : Concurs places time index) {j : Nat} (hj : j < index)
    (hlast : ∀ k j', k < time → places[k]? = some j' → j' < j) (rule : String) :
    q.backing.arrayAt? rule j = q.backing.arrayAt? rule index := by
  unfold BackingTable.arrayAt?
  cases hfind : q.backing.find? rule with
  | none => rfl
  | some entry =>
    obtain ⟨x, hshows⟩ := h.exists_shown hfind
    obtain ⟨j', hj', hvisible⟩ := hshows.after
    have hsame : entry.visibleFrom ≤ j ↔ entry.visibleFrom ≤ index := by
      have hvisible : entry.visibleFrom = j' + 1 := hvisible
      have hwhen := htime _ _ hj'
      have hbefore := hlast x.after j'
      constructor
      · intro hle
        omega
      · intro hle
        have := hbefore (hwhen.1 (by omega)) hj'
        omega
    dsimp only
    simp only [hsame]

theorem call_of_unseen {value j i : Nat} {r : Rule} {v : Deferred α} (hj : places[value]? = some j)
    (hr : p.rules.rules[j]? = some r) (hv : d.values[value]? = some v)
    (hunseen : q.backing.arrayAt? r.name i = none) {o : Oracle α}
    (hc : p.Circumstances d places parameters k.domains value j (k.readingAt parameters q.backing m j) o)
    {position : List Int} (hasked : Asked α v.lengths position) :
    (k.readingAt parameters q.backing m i).call r.name (if r.params = [] then [] else position) = v.element o position := by
  have hw := h.follows.values value j r v hj hr hv
  have helement := hw.element parameters k.domains _ _ h.surroundings hc position hasked
  obtain ⟨hcount, hzip⟩ := hw.arguments hasked
  rw [Kernel.call_readingAt_of_unseen hunseen, h.lowers.call_reading h.follows.wellFormed hr, if_pos hcount, hzip,
    ← helement]
  rfl

/-- What a kernel reads at a registration index is what the draft says at the time of the index. -/
theorem circumstances [ExactOrigin α] (hm : k.Mirrors m buffers) (htime : Concurs places time index) :
    p.Circumstances d places parameters k.domains time index (k.readingAt parameters q.backing m index)
      (Draft.oracleAt d.values (d.holding new) (Draft.elementIn buffers) time) := by
  induction time using Nat.strongRecOn generalizing index with
  | _ time ih =>
    have hp := h.follows.wellFormed
    refine ⟨fun value v j r hlt hv hj hr position hasked => ?_, fun j r hj hr hlast position => ?_, fun n a ha => ?_,
      Kernel.points_readingAt⟩
    · have hw := h.follows.values value j r v hj hr hv
      rcases h.arrayAt?_eq htime hj hr with ⟨hunseen, hnone⟩ | ⟨n, a, ha, hseen, hsome⟩
      · rw [h.call_of_unseen hj hr hv hunseen (ih value hlt (h.follows.concurs hj)) hasked,
          Draft.oracleAt_of_unseen hnone hlt, hv, Option.bind_some]
      · rw [Kernel.call_readingAt_of_seen hseen, hw.loadedIndex_eq hasked, Draft.oracleAt_of_seen hsome, hm.load? ha]
    · rw [Kernel.call_readingAt_of_unseen (h.arrayAt?_eq_none htime hj hr hlast index), h.lowers.call_reading hp hr,
        Kernel.readingAt_congr (h.arrayAt?_congr htime hj hlast)]
      rfl
    · rw [Kernel.load_readingAt]
      exact funext fun position => hm.load? (h.extends_arrays ha) position

theorem arrayAt?_stored {o : Realization} (ho : o ∈ os) : q.backing.arrayAt? o.rule.name o.index = none := by
  obtain ⟨_, hrequested, _⟩ := h.lowers.sound o ho
  have hnone := (requestedIn_eq_some hrequested).2.2
  rw [BackingTable.arrayAt?, (h.lowers.find?_eq_some_iff h.follows.wellFormed hnone).2 ⟨o, ho, rfl, rfl⟩]
  exact if_neg (Nat.not_succ_le_self o.index)

theorem exists_stored {o : Realization} {n : Nat × Nat} (ho : o ∈ os) (hplace : places[n.1]? = some o.index) :
    ∃ r v, p.Renders N d places o.handle r ∧ r.value = n.1 ∧ p.rules.find? o.handle.rule = some o.rule ∧
      d.values[n.1]? = some v ∧ v.lengths = r.lengths := by
  obtain ⟨hrule, hrequested, _⟩ := h.lowers.sound o ho
  obtain ⟨hmem, hname, _⟩ := requestedIn_eq_some hrequested
  obtain ⟨r, hr⟩ := h.renders _ hmem
  obtain ⟨j, rule, v, hj, hrule', hfind, hname', hv, hlengths⟩ := hr.exists_rule h.follows.wellFormed
  have hsame := (h.follows.name_eq_iff hplace hrule hj hrule').1 (hname'.trans hname)
  rw [hsame] at hj hv
  obtain rfl := Option.some.inj (hplace.symm.trans hj)
  obtain rfl := Option.some.inj (hrule.symm.trans hrule')
  exact ⟨r, v, hr, hsame, hfind, hv, hlengths⟩

end Holding

section Statements

variable [ExactOrigin α] (h : p.Enacts N d places outputs os k q parameters new)

include h

theorem does_queued {e : Nat × Statement} {x : Errand α} (hx : p.Expresses N d places e x) :
    k.Does parameters q.backing d.values (d.holding new) e x := by
  obtain ⟨a, index, htarget, ha, hall⟩ := hx.target
  obtain ⟨hpoints, hvalues⟩ := hall parameters k.domains h.surroundings
  refine ⟨a, index, _, htarget, h.extends_arrays ha, hpoints, ?_⟩
  rw [List.forall₂_map_left_iff, List.forall₂_same]
  exact fun point hpoint m buffers hm => hvalues _ _ (h.circumstances hm hx.time) point hpoint

variable [StableIndices α]

theorem call_stored (hm : k.Mirrors m buffers) {o : Realization} {n : Nat × Nat} (ho : o ∈ os)
    (hplace : places[n.1]? = some o.index) {point : List Int} (hpoint : point ∈ (d.storeOf n.1 n.2).points) :
    (k.readingAt parameters q.backing m o.index).call o.rule.name (if o.rule.params = [] then [] else rounded α point) =
      (d.storeOf n.1 n.2).element
        (Draft.oracleAt d.values (d.holding new) (Draft.elementIn buffers) (d.storeOf n.1 n.2).due) point := by
  obtain ⟨_, v, _, _, _, hv, _⟩ := h.exists_stored ho hplace
  have hin : InBox point (v.lengths.map span) := by
    rw [Draft.storeOf, Draft.lengthsOf, hv] at hpoint
    exact mem_boxPoints.1 hpoint
  have hc := h.circumstances hm (h.follows.concurs hplace)
  rw [h.call_of_unseen hplace (h.lowers.sound o ho).1 hv (h.arrayAt?_stored ho) hc (.of_inBox hin), Draft.storeOf, hv]
  rfl

theorem does_stored_scalar {o : Realization} {n : Nat × Nat} (ho : o ∈ os) (hplace : places[n.1]? = some o.index)
    (harray : k.arrays[n.2]? = some o.declaration) (hunit : o.handle.shape.isUnit = true) :
    k.Does parameters q.backing d.values (d.holding new) (o.index, o.store) (d.storeOf n.1 n.2) := by
  obtain ⟨r, v, hr, _, hfind, hv, hlengths⟩ := h.exists_stored ho hplace
  obtain ⟨rule, hfind', harity⟩ := hr.live.rule
  obtain rfl := Option.some.inj (hfind.symm.trans hfind')
  have hone : r.lengths = [1] := by
    rw [← hr.lengths, eq_of_beq hunit]
    rfl
  have hpoints : (d.storeOf n.1 n.2).points = [[0]] := by
    rw [Draft.storeOf, Draft.lengthsOf, hv, Option.map_some, Option.getD_some, hlengths, hone]
    have hbox : boxPoints ([1].map span) = [[0]] := by decide
    exact hbox
  have harity : o.rule.params = [] ∨ o.rule.params ≠ [] ∧ o.rule.arity = 1 := by
    rcases harity with harity | ⟨harity, _⟩
    · rw [hr.rank_eq, hone] at harity
      refine .inr ⟨fun hnil => ?_, harity⟩
      rw [Rule.arity, hnil] at harity
      cases harity
    · exact .inl (List.length_eq_zero_iff.1 harity)
  rw [Realization.store, if_pos hunit]
  refine ⟨o.declaration, [.int 0], [parameters], rfl, harray, rfl, ?_⟩
  rw [hpoints]
  refine .cons (fun m buffers hm => ⟨position?_replicate 1 0, ?_⟩) .nil
  rw [← h.call_stored hm ho hplace (hpoints ▸ List.mem_singleton_self _), value?_call_eq, position?_replicate,
    Option.bind_some]
  rcases harity with hnil | ⟨hne, harity⟩
  · rw [if_pos hnil, Rule.arity, hnil]
    rfl
  · rw [if_neg hne, harity]
    rfl

theorem does_stored_box {o : Realization} {n : Nat × Nat} (ho : o ∈ os) (hplace : places[n.1]? = some o.index)
    (harray : k.arrays[n.2]? = some o.declaration) (hunit : ¬ o.handle.shape.isUnit = true) :
    k.Does parameters q.backing d.values (d.holding new) (o.index, o.store) (d.storeOf n.1 n.2) := by
  obtain ⟨r, v, hr, _, hfind, hv, hlengths⟩ := h.exists_stored ho hplace
  obtain ⟨rule, hfind', harity⟩ := hr.live.rule
  obtain rfl := Option.some.inj (hfind.symm.trans hfind')
  have hparams : o.rule.params ≠ [] := by
    refine fun hnil => hunit ?_
    rcases harity with harity | ⟨_, hshape⟩
    · rw [Rule.arity, hnil] at harity
      exact absurd (List.length_eq_zero_iff.1 harity.symm) o.handle.shape.extents_ne_nil
    · rw [hshape]
      rfl
  have hlen := (h.lowers.sound o ho).2.2 (by simpa using hunit)
  have hdomain : Domain.box (o.vars.zip o.handle.shape.extents) ∈ k.domains := by
    rw [h.lowers.domains]
    refine List.mem_append_right _ (List.mem_flatMap.2 ⟨o, ho, ?_⟩)
    rw [Realization.domains, if_neg hunit]
    exact List.mem_singleton_self _
  have hnodup := nodup_vars_of_mem h.surroundings.nodup hdomain
  rw [Domain.vars_box, List.map_fst_zip (Nat.le_of_eq hlen)] at hnodup
  have hpoints : (d.storeOf n.1 n.2).points = boxPoints ((o.handle.shape.extents.map (Extent.under N.value)).map span) := by
    rw [Draft.storeOf, Draft.lengthsOf, hv, hr.lengths, ← hlengths]
    rfl
  rw [Realization.store, if_neg hunit]
  refine ⟨o.declaration, o.vars.map .var, _, rfl, harray, h.surroundings.pointsOver_box hlen hdomain hr.used, ?_⟩
  rw [hpoints, List.forall₂_map_left_iff, List.forall₂_same]
  intro point hpoint m buffers hm
  have hbinds : (parameters.at o.vars point).Binds o.vars point :=
    Env.binds_at parameters hnodup (by
      rw [hlen, (mem_boxPoints.1 hpoint).length_eq, List.length_map, List.length_map]
      rfl)
  have hposition := position?_vars_rounded (I := k.readingAt parameters q.backing m o.index) hbinds
  refine ⟨hposition, ?_⟩
  rw [← h.call_stored hm ho hplace (hpoints ▸ hpoint), if_neg hparams, value?_call_eq]
  dsimp only
  rw [hposition, Option.bind_some]

theorem does_stored {o : Realization} {n : Nat × Nat} (ho : o ∈ os) (hplace : places[n.1]? = some o.index)
    (harray : k.arrays[n.2]? = some o.declaration) :
    k.Does parameters q.backing d.values (d.holding new) (o.index, o.store) (d.storeOf n.1 n.2) := by
  by_cases hunit : o.handle.shape.isUnit = true
  · exact h.does_stored_scalar ho hplace harray hunit
  · exact h.does_stored_box ho hplace harray hunit

end Statements

end Enacts

end Plan

end ArrayPlan
