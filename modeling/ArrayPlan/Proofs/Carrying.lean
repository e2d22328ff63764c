import ArrayPlan.Proofs.Enacting
import ArrayPlan.Proofs.Refinement
import Mathlib.Data.List.Sort

/-!
Executions that follow a draft. The statements of a kernel are those that the draft has queued and the stores of values,
in the order that the draft says, and each does what its errand says. So an execution fails where that of the draft
fails, and ends with the same buffers otherwise.
-/

namespace ArrayPlan

open Interpretation

section Loops

variable {β γ δ ε : Type} {R : β → γ → Prop} {S : β → γ → Prop}

theorem rel_mono {x : Option β} {y : Option γ} (h : Option.Rel R x y) (himp : ∀ b c, R b c → S b c) :
    Option.Rel S x y := by
  cases h with
  | none => exact .none
  | some h => exact .some (himp _ _ h)

theorem rel_bind {U : δ → ε → Prop} {x : Option β} {y : Option γ} {f : β → Option δ} {g : γ → Option ε}
    (h : Option.Rel R x y) (hnext : ∀ b c, R b c → Option.Rel U (f b) (g c)) : Option.Rel U (x.bind f) (y.bind g) := by
  cases h with
  | none => exact .none
  | some h => exact hnext _ _ h

theorem exists_of_forall₂ {xs : List β} {ys : List γ} (h : List.Forall₂ R xs ys) {x : β} (hx : x ∈ xs) :
    ∃ y ∈ ys, R x y := by
  obtain ⟨i, hi, rfl⟩ := List.mem_iff_getElem.1 hx
  exact ⟨_, List.getElem_mem _, h.get hi (h.length_eq ▸ hi)⟩

theorem forall₂_filterMap {f : β → Option γ} {xs : List β} (h : ∀ x ∈ xs, ∃ y, f x = some y) :
    List.Forall₂ (fun x y => f x = some y) xs (xs.filterMap f) := by
  induction xs with
  | nil => exact .nil
  | cons x xs ih =>
    obtain ⟨y, hy⟩ := h x List.mem_cons_self
    rw [List.filterMap_cons_some hy]
    exact .cons hy (ih fun x hx => h x (List.mem_cons_of_mem _ hx))

theorem rel_foldlM {f : β → δ → Option β} {g : γ → ε → Option γ} {xs : List δ} {ys : List ε}
    (h : List.Forall₂ (fun x y => ∀ b c, R b c → Option.Rel R (f b x) (g c y)) xs ys) {b : β} {c : γ} (hbc : R b c) :
    Option.Rel R (xs.foldlM f b) (ys.foldlM g c) := by
  induction h generalizing b c with
  | nil => exact .some hbc
  | cons hstep _ ih =>
    rw [List.foldlM_cons, List.foldlM_cons]
    exact rel_bind (hstep b c hbc) fun _ _ => ih

theorem forall₂_merge {le : β → β → Bool} {le' : γ → γ → Bool} {xs ys : List β} {xs' ys' : List γ} {U : β → γ → Prop}
    (hxs : List.Forall₂ R xs xs') (hys : List.Forall₂ S ys ys') (hR : ∀ x x', R x x' → U x x')
    (hS : ∀ y y', S y y' → U y y') (hle : ∀ x x' y y', R x x' → S y y' → le x y = le' x' y') :
    List.Forall₂ U (xs.merge ys le) (xs'.merge ys' le') := by
  induction hxs generalizing ys ys' with
  | nil =>
    rw [List.nil_merge, List.nil_merge]
    exact hys.imp hS
  | @cons x x' xs xs' hx hxs ihx =>
    induction hys with
    | nil =>
      rw [List.merge_right, List.merge_right]
      exact .cons (hR _ _ hx) (hxs.imp hR)
    | @cons y y' ys ys' hy hys ihy =>
      rw [List.cons_merge_cons, List.cons_merge_cons, hle x x' y y' hx hy]
      split
      · exact .cons (hR _ _ hx) (ihx (.cons hy hys))
      · exact .cons (hS _ _ hy) ihy

end Loops

theorem name_eq_iff {as : List Declaration} (hnodup : (arrayNames as).Nodup) {n i : Nat} {a b : Declaration}
    (ha : as[n]? = some a) (hb : as[i]? = some b) : b.name = a.name ↔ i = n := by
  constructor
  · intro hname
    have hi := (List.getElem?_eq_some_iff.1 hb).1
    refine (List.getElem?_inj (by simpa [arrayNames] using hi) hnodup).1 ?_
    rw [arrayNames, List.getElem?_map, List.getElem?_map, ha, hb, Option.map_some, Option.map_some, hname]
  · rintro rfl
    rw [Option.some.inj (ha.symm.trans hb)]

variable {α : Type} [Scalar α]

namespace Kernel

variable {k : Kernel} {m : Memory α} {buffers : List (Buffer α)} {parameters : Env} {t : BackingTable}
  {values : List (Deferred α)} {held : List Held}

omit [Scalar α] in
theorem Mirrors.store (hnodup : (arrayNames k.arrays).Nodup) (hm : k.Mirrors m buffers) {n : Nat} {a : Declaration}
    (ha : k.arrays[n]? = some a) (index : List Int) (x : α) :
    Option.Rel k.Mirrors (m.store a.name index x).toOption (Draft.storeIn? buffers n index x) := by
  have hbuffer := hm.buffer n a ha
  have hn : n < buffers.length := hm.length ▸ (List.getElem?_eq_some_iff.1 ha).1
  obtain ⟨b, hb⟩ : ∃ b, buffers[n]? = some b := ⟨_, List.getElem?_eq_getElem hn⟩
  have hlookup : m.buffers.lookup a.name = some b := hbuffer.trans hb
  rw [Draft.storeIn?, hb, Option.bind_some]
  cases hwrite : b.write index x with
  | error e =>
    cases hstore : m.store a.name index x with
    | error e => exact .none
    | ok m' =>
      obtain ⟨buffers', hmodify, _⟩ := exists_of_bind_eq_ok hstore
      obtain ⟨b', _, hb', hchange, _⟩ := Memory.lookup_modify hmodify
      obtain rfl := Option.some.inj (hlookup.symm.trans hb')
      rw [hwrite] at hchange
      cases hchange
  | ok b' =>
    obtain ⟨buffers', hmodify⟩ := @Memory.modify_ok _ _ (fun b => b.write index x) _ _ _ hlookup hwrite
    obtain ⟨c, c', hc, hchange, hothers⟩ := Memory.lookup_modify hmodify
    obtain rfl := Option.some.inj (hlookup.symm.trans hc)
    obtain rfl := Except.ok.inj (hwrite.symm.trans hchange)
    rw [show m.store a.name index x = .ok ⟨buffers'⟩ by rw [Memory.store, hmodify]; rfl]
    refine .some ⟨by rw [List.length_set, hm.length], fun i other hother => ?_⟩
    rw [Memory.buffer?, hothers other.name, List.getElem?_set, ← hm.buffer i other hother]
    by_cases hsame : n = i
    · subst hsame
      obtain rfl := Option.some.inj (ha.symm.trans hother)
      rw [if_pos rfl, if_pos rfl, if_pos hn]
    · rw [if_neg fun hname => hsame ((name_eq_iff hnodup ha hother).1 hname).symm, if_neg hsame]
      rfl

theorem Mirrors.carryOut (hlayered : Layered k.rules) (hnodup : (arrayNames k.arrays).Nodup) {e : Nat × Statement}
    {x : Errand α} (hdoes : k.Does parameters t values held e x) (hm : k.Mirrors m buffers) :
    Option.Rel k.Mirrors (k.executeStatement parameters m (e.2.loadBacked t e.1)).toOption
      (Draft.carryOut? values held buffers x) := by
  obtain ⟨a, index, envs, htarget, ha, hpoints, hall⟩ := hdoes
  rw [executeStatement, show (e.2.loadBacked t e.1).within = e.2.within from rfl, hpoints, toOption_bind, Except.toOption,
    Option.bind_some, toOption_foldlM, Draft.carryOut?]
  refine rel_foldlM (hall.imp fun env point hpoint m buffers hm => ?_) hm
  obtain ⟨hposition, hvalue⟩ := hpoint m buffers hm
  rw [toOption_storeAt hlayered, outcome?_loadBacked htarget, hvalue, hposition, Draft.storeAt?]
  cases x.position (Draft.oracleAt values held (Draft.elementIn buffers) x.due) point with
  | none =>
    cases x.element (Draft.oracleAt values held (Draft.elementIn buffers) x.due) point <;> exact .none
  | some position =>
    cases x.element (Draft.oracleAt values held (Draft.elementIn buffers) x.due) point with
    | none => exact .none
    | some v => exact hm.store hnodup ha position v

end Kernel

theorem map_due_of_inOrder {items : List Scheduled} (horder : items.Pairwise Scheduled.InOrder) :
    items.map Scheduled.due = (items.filterMap Scheduled.queued?).merge
      ((items.filterMap Scheduled.stored?).map fun o => (o.index, o.store)) fun e e' => e.1 ≤ e'.1 := by
  induction items with
  | nil => exact (List.nil_merge []).symm
  | cons i items ih =>
    obtain ⟨hfirst, hrest⟩ := List.pairwise_cons.1 horder
    rw [List.map_cons, ih hrest]
    cases i with
    | queued e =>
      rw [List.filterMap_cons_some (show Scheduled.queued? (.queued e) = some e from rfl),
        List.filterMap_cons_none (show Scheduled.stored? (.queued e) = none from rfl)]
      cases hstored : (items.filterMap Scheduled.stored?).map fun o => (o.index, o.store) with
      | nil => rw [List.merge_right, List.merge_right, Scheduled.due]
      | cons e' stores =>
        obtain ⟨o, ho, rfl⟩ := List.mem_map.1 (hstored ▸ List.mem_cons_self)
        obtain ⟨j, hj, hitem⟩ := List.mem_filterMap.1 ho
        have hbefore := hfirst j hj
        cases j with
        | queued _ => cases hitem
        | stored o' =>
          obtain rfl := Option.some.inj hitem
          have hle : e.1 ≤ o'.index := hbefore
          rw [List.cons_merge_cons_pos _ _ _ (decide_eq_true hle), Scheduled.due]
    | stored o =>
      rw [List.filterMap_cons_none (show Scheduled.queued? (.stored o) = none from rfl),
        List.filterMap_cons_some (show Scheduled.stored? (.stored o) = some o from rfl), List.map_cons]
      cases hqueued : items.filterMap Scheduled.queued? with
      | nil => rw [List.nil_merge, List.nil_merge, Scheduled.due]
      | cons e queue =>
        obtain ⟨j, hj, hitem⟩ := List.mem_filterMap.1 (hqueued ▸ List.mem_cons_self)
        have hbefore := hfirst j hj
        cases j with
        | stored _ => cases hitem
        | queued e' =>
          obtain rfl := Option.some.inj hitem
          rw [List.cons_merge_cons_neg _ _ _ (decide_eq_false (Nat.not_le_of_lt hbefore) ▸ Bool.false_ne_true), Scheduled.due]

namespace Plan.Enacts

variable {N : Numbering} {p q : Plan} {d : Draft α} {places : List Nat} {outputs : List Handle} {os : List Realization}
  {k : Kernel} {parameters : Env} {new : List (Nat × Nat)} {m : Memory α} {buffers : List (Buffer α)}
  [ExactOrigin α] [StableIndices α] (h : p.Enacts N d places outputs os k q parameters new)

include h

/-- The statements are those queued and the stores, in the order that the draft says. -/
theorem does_agenda : List.Forall₂ (k.Does parameters q.backing d.values (d.holding new))
    (agenda p.pending os (p.rules.size + 1))
    (d.queue.merge (new.map fun n => d.storeOf n.1 n.2) fun e e' => e.due ≤ e'.due) := by
  have hp := h.follows.wellFormed
  have hqueued : (schedule p.pending os (p.rules.size + 1)).filterMap Scheduled.queued? = p.pending := by
    rw [queued_schedule hp.sorted, List.filter_eq_self]
    exact fun e he => decide_eq_true (Nat.lt_succ_of_le (hp.pending e he).1)
  have hstored : (schedule p.pending os (p.rules.size + 1)).filterMap Scheduled.stored? = os := by
    rw [stored_schedule h.lowers.sorted, List.filter_eq_self]
    exact fun o ho => decide_eq_true (Nat.lt_succ_of_lt (List.getElem?_eq_some_iff.1 (h.lowers.sound o ho).1).1)
  rw [← map_due_schedule, map_due_of_inOrder (inOrder_schedule _ _ _), hqueued, hstored]
  have hstores : List.Forall₂ (fun e x => ∃ (o : Realization) (n : Nat × Nat), o ∈ os ∧ places[n.1]? = some o.index ∧
      k.arrays[n.2]? = some o.declaration ∧ e = (o.index, o.store) ∧ x = d.storeOf n.1 n.2)
      (os.map fun o => (o.index, o.store)) (new.map fun n => d.storeOf n.1 n.2) := by
    rw [List.forall₂_map_left_iff, List.forall₂_map_right_iff]
    exact ((List.forall₂_and_left _ _).2 ⟨fun o ho => ho, h.new⟩).imp fun o n ⟨ho, hplace, harray⟩ =>
      ⟨o, n, ho, hplace, harray, rfl, rfl⟩
  refine forall₂_merge h.follows.queue hstores (fun e x => h.does_queued) ?_ ?_
  · rintro _ _ ⟨o, n, ho, hplace, harray, rfl, rfl⟩
    exact h.does_stored ho hplace harray
  · rintro e x _ _ hx ⟨o, n, ho, hplace, harray, rfl, rfl⟩
    have hbefore := hx.time n.1 o.index hplace
    rw [Bool.eq_iff_iff, decide_eq_true_iff, decide_eq_true_iff, ← Nat.not_lt, hbefore, Nat.not_lt]
    rfl

theorem executes (hm : k.Mirrors m buffers) :
    Option.Rel k.Mirrors (k.statements.foldlM (k.executeStatement parameters) m).toOption
      ((d.queue.merge (new.map fun n => d.storeOf n.1 n.2) fun e e' => e.due ≤ e'.due).foldlM
        (Draft.carryOut? d.values (d.holding new)) buffers) := by
  have hp := h.follows.wellFormed
  rw [toOption_foldlM, h.lowers.statements, List.foldlM_map]
  exact rel_foldlM (h.does_agenda.imp fun e x hdoes m buffers hm =>
    hm.carryOut (h.lowers.layered hp) (h.lowers.arrays_nodup hp) hdoes) hm

end Plan.Enacts

section Beginning

variable {parameters : Env} {data : List (Nat × Array α)}

omit [Scalar α] in
theorem Word.unsigned_signed (n : Nat) : Word.unsigned (Word.signed n) = n % Word.modulus := by
  rw [Word.unsigned, Word.signed, Int.bmod_emod]
  omega

omit [Scalar α] in
theorem Numbering.mapM_lengthIn (N : Numbering) {extents : List Extent} (hused : N.Uses extents)
    (hbound : ∀ name, .symbolic name ∈ extents → parameters.value? name = some (Word.signed (N.value name))) :
    extents.mapM (Extent.lengthIn parameters) = .ok ((extents.map (Extent.under N.value)).map N.count) := by
  induction extents with
  | nil => rfl
  | cons e extents ih =>
    obtain ⟨hfirst, hrest⟩ := List.forall_mem_cons.1 hused
    have hlength : Extent.lengthIn parameters e = .ok (N.count (e.under N.value)) := by
      cases e with
      | fixed n => exact congrArg Except.ok (Eq.symm hfirst)
      | symbolic name =>
        simp only [Extent.lengthIn, hbound name List.mem_cons_self, Word.unsigned_signed, ← N.count_value name]
        rfl
    rw [List.mapM_cons, hlength, ih hrest fun name hname => hbound name (List.mem_cons_of_mem _ hname)]
    rfl

namespace Memory

omit [Scalar α] in
theorem toOption_declare {m : Memory α} {a : Declaration} {lengths : List Nat} {n : Nat}
    (hlengths : a.shape.extents.mapM (Extent.lengthIn parameters) = .ok lengths)
    (hdata : m.buffer? a.name = (data.reverse.lookup n).map Buffer.ofArray) :
    (m.declare parameters a).toOption = (Draft.bufferOf? data n lengths).map (m.set a.name) := by
  rw [declare, hlengths, Draft.bufferOf?]
  cases hlookup : data.reverse.lookup n with
  | none =>
    rw [hlookup] at hdata
    simp only [Bind.bind, Except.bind, hdata, Option.map_none]
    rfl
  | some xs =>
    rw [hlookup] at hdata
    have hsize : (Buffer.ofArray xs).size = xs.size := Nat.mul_one xs.size
    simp only [Bind.bind, Except.bind, hdata, Option.map_some, hsize]
    split <;> rfl

omit [Scalar α] in
theorem rel_declare {as : List Declaration} {ls : List (List Nat)} {start : Nat} {m : Memory α}
    (hlengths : List.Forall₂ (fun a l => a.shape.extents.mapM (Extent.lengthIn parameters) = .ok l) as ls)
    (hnodup : (arrayNames as).Nodup)
    (hdata : ∀ (i : Nat) a, as[i]? = some a → m.buffer? a.name = (data.reverse.lookup (start + i)).map Buffer.ofArray) :
    Option.Rel (fun m' buffers => buffers.length = as.length ∧
        (∀ (i : Nat) a, as[i]? = some a → m'.buffer? a.name = buffers[i]?) ∧
        ∀ name, name ∉ arrayNames as → m'.buffer? name = m.buffer? name)
      (as.foldlM (declare parameters) m).toOption ((ls.zipIdx start).mapM fun a => Draft.bufferOf? data a.2 a.1) := by
  induction hlengths generalizing start m with
  | nil => exact .some ⟨rfl, by simp, fun _ _ => rfl⟩
  | @cons a lengths as ls ha _ ih =>
    obtain ⟨hnew, hnodup⟩ := List.nodup_cons.1 hnodup
    rw [List.foldlM_cons, toOption_bind, toOption_declare ha (hdata 0 a rfl), List.zipIdx_cons, List.mapM_cons, Nat.add_zero]
    cases Draft.bufferOf? data start lengths with
    | none => exact .none
    | some b =>
      have hrest : ∀ (i : Nat) a', as[i]? = some a' →
          (m.set a.name b).buffer? a'.name = (data.reverse.lookup (start + 1 + i)).map Buffer.ofArray := by
        intro i a' hi
        have hne : a'.name ≠ a.name := fun heq => hnew (heq ▸ List.mem_map_of_mem (List.mem_of_getElem? hi))
        rw [buffer?_set, if_neg hne, hdata (i + 1) a' hi, Nat.add_assoc, Nat.add_comm 1]
      have hrel := ih hnodup hrest
      rw [Option.map_some, Option.bind_some, Option.bind_eq_bind, Option.bind_some]
      generalize (as.foldlM (declare parameters) (m.set a.name b)).toOption = after at hrel ⊢
      generalize (ls.zipIdx (start + 1)).mapM (fun a => Draft.bufferOf? data a.2 a.1) = later at hrel ⊢
      cases hrel with
      | none => exact .none
      | some hrel =>
        obtain ⟨hlength, hbuffers, hothers⟩ := hrel
        refine .some ⟨congrArg (· + 1) hlength, fun i a' hi => ?_, fun name hname => ?_⟩
        · cases i with
          | zero =>
            obtain rfl := Option.some.inj hi
            rw [hothers _ hnew, buffer?_set, if_pos rfl]
            rfl
          | succ i => exact hbuffers i a' hi
        · obtain ⟨hne, hname⟩ := not_or.1 (mt List.mem_cons.2 hname)
          rw [hothers name hname, buffer?_set, if_neg hne]

end Memory

end Beginning

namespace Plan

variable {N : Numbering} {p q : Plan} {d : Draft α} {places : List Nat} {outputs : List Handle} {os : List Realization}
  {k : Kernel} {parameters : Env} {rs : List Drafted}

section Lowering

variable (hf : p.Follows N d places) (hl : p.Lowers outputs os k q)

include hf hl

theorem Follows.used_of_mem (houtputs : ∀ h ∈ outputs, ∃ r, p.Renders N d places h r) {name : String}
    (hname : name ∈ k.parameters) : N.used name := by
  have hused : ∀ {s : Shape}, N.Uses s.extents → name ∈ s.parameters → N.used name := by
    intro s hs hname
    obtain ⟨e, he, hsymbolic⟩ := List.mem_filterMap.1 hname
    cases e with
    | fixed n => cases hsymbolic
    | symbolic other => exact (hs _ he).used (congrArg Extent.symbolic (Option.some.inj hsymbolic))
  have hstored : ∀ o ∈ os, N.Uses o.handle.shape.extents := by
    intro o ho
    obtain ⟨r, hr⟩ := houtputs _ (requestedIn_eq_some (hl.sound o ho).2.1).1
    exact hr.used
  rcases List.mem_append.1 (List.mem_eraseDups.1 hname) with hname | hname
  · obtain ⟨dom, hdom, hname⟩ := List.mem_flatMap.1 hname
    rcases List.mem_append.1 (hl.domains ▸ hdom) with hdom | hdom
    · exact hf.domains dom hdom name hname
    · obtain ⟨o, ho, hdom⟩ := List.mem_flatMap.1 hdom
      rw [Realization.domains] at hdom
      split at hdom
      · cases hdom
      · obtain rfl := List.mem_singleton.1 hdom
        exact used_of_box (hstored o ho) o.vars name hname
  · obtain ⟨a, ha, hname⟩ := List.mem_flatMap.1 hname
    rcases List.mem_append.1 (hl.arrays ▸ ha) with ha | ha
    · obtain ⟨lengths, _, hmeasures⟩ := exists_of_forall₂ hf.arrays ha
      exact hused hmeasures.2 hname
    · obtain ⟨o, ho, rfl⟩ := List.mem_map.1 ha
      exact hused (hstored o ho) hname

theorem Follows.surroundings (houtputs : ∀ h ∈ outputs, ∃ r, p.Renders N d places h r)
    (hunowned : ∀ name, N.used name → name ∉ k.domains.flatMap Domain.vars)
    (hbound : ∀ name ∈ k.parameters, parameters.value? name = some (Word.signed (N.value name)))
    (hothers : ∀ name, name ∉ k.parameters → parameters.value? name = none) :
    p.Surroundings N parameters k.domains where
  nodup := hl.vars_nodup hf.wellFormed
  mem _ ha := hl.domains ▸ List.mem_append_left _ ha
  free v hv := hothers v fun hparameter => hunowned v (hf.used_of_mem hl houtputs hparameter) hv
  bound a ha name hname := hbound name (List.mem_eraseDups.2 (List.mem_append_left _ (List.mem_flatMap.2 ⟨a, ha, hname⟩)))
  unowned := hunowned

theorem Follows.map_index_eq (hrs : List.Forall₂ (p.Renders N d places) outputs rs) :
    os.map Realization.index = (d.unheld (rs.map Drafted.value)).filterMap (places[·]?) := by
  have hrange : (d.unheld (rs.map Drafted.value)).Pairwise (· < ·) := List.Pairwise.filter _ List.pairwise_lt_range
  refine List.Pairwise.eq_of_mem_iff hl.sorted ?_ fun index => ?_
  · refine List.pairwise_filterMap.2 (hrange.imp fun hlt j hj j' hj' => ?_)
    exact (hf.concurs hj' _ j hj).2 hlt
  rw [List.mem_map, List.mem_filterMap]
  constructor
  · rintro ⟨o, ho, rfl⟩
    obtain ⟨hrule, hrequested, _⟩ := hl.sound o ho
    obtain ⟨hmem, hname, hnone⟩ := requestedIn_eq_some hrequested
    obtain ⟨r, hwanted, hr⟩ := exists_of_forall₂ hrs hmem
    obtain ⟨j, rule, v, hj, hrule', _, hname', hv, _⟩ := hr.exists_rule hf.wellFormed
    obtain rfl := hf.wellFormed.index_inj hrule' hrule (hname'.trans hname)
    have hunheld : d.arrayOf? r.value = none := by
      rcases hf.array?_eq hr with ⟨_, hunheld⟩ | ⟨n, a, _, harray, _⟩
      · exact hunheld
      · rw [BackingTable.array?, hname, hnone] at harray
        cases harray
    refine ⟨r.value, List.mem_filter.2 ⟨List.mem_range.2 (List.getElem?_eq_some_iff.1 hv).1, ?_⟩, hj⟩
    simp [List.mem_map_of_mem hwanted, hunheld]
  · rintro ⟨value, hvalue, hplace⟩
    obtain ⟨_, hvalue⟩ := List.mem_filter.1 hvalue
    obtain ⟨hwanted, hunheld⟩ := (Bool.and_eq_true _ _).mp hvalue
    obtain ⟨r, hr, rfl⟩ := List.mem_map.1 (of_decide_eq_true hwanted)
    obtain ⟨h, hh, hr⟩ := exists_of_forall₂ hrs.flip hr
    have hr : p.Renders N d places h r := hr
    have hnone : p.backing.find? h.rule = none := by
      rcases hf.array?_eq hr with ⟨hnone, _⟩ | ⟨n, a, _, _, harray⟩
      · exact Option.map_eq_none_iff.1 hnone
      · rw [harray] at hunheld
        cases hunheld
    obtain ⟨o, ho, hname⟩ := hl.exists_realization hh hnone
    obtain ⟨j, rule, v, hj, hrule, _, hname', _, _⟩ := hr.exists_rule hf.wellFormed
    obtain rfl := Option.some.inj (hj.symm.trans hplace)
    exact ⟨o, ho, hf.wellFormed.index_inj (hl.sound o ho).1 hrule (hname.trans hname'.symm)⟩

theorem Follows.enacts (hrs : List.Forall₂ (p.Renders N d places) outputs rs)
    (hs : p.Surroundings N parameters k.domains) :
    p.Enacts N d places outputs os k q parameters (d.given (rs.map Drafted.value)) := by
  refine ⟨hf, hl, hs, fun h hh => ?_, ?_⟩
  · obtain ⟨r, _, hr⟩ := exists_of_forall₂ hrs hh
    exact ⟨r, hr⟩
  have hplaces : List.Forall₂ (fun o value => places[value]? = some o.index) os (d.unheld (rs.map Drafted.value)) := by
    have hsome : ∀ value ∈ d.unheld (rs.map Drafted.value), ∃ j, places[value]? = some j := by
      intro value hvalue
      have hlt := List.mem_range.1 (List.mem_filter.1 hvalue).1
      rw [← hf.count] at hlt
      exact ⟨_, List.getElem?_eq_getElem hlt⟩
    have hindices := forall₂_filterMap hsome
    rw [← hf.map_index_eq hl hrs, List.forall₂_map_right_iff] at hindices
    exact hindices.flip
  unfold Draft.given
  refine List.forall₂_iff_get.2 ⟨by rw [List.length_zipIdx, hplaces.length_eq], fun i hi hi' => ?_⟩
  have hlt : i < (d.unheld (rs.map Drafted.value)).length := hplaces.length_eq ▸ hi
  have harray : k.arrays[d.arrays.length + i]? = some os[i].declaration := by
    rw [hl.arrays, ← hf.arrays.length_eq, List.getElem?_append_right (Nat.le_add_right _ _), Nat.add_sub_cancel_left,
      List.getElem?_map, List.getElem?_eq_getElem hi]
    rfl
  rw [List.get_eq_getElem, List.get_eq_getElem, List.getElem_zipIdx]
  exact ⟨hplaces.get hi hlt, harray⟩

end Lowering

namespace Enacts

section Whole

variable {new : List (Nat × Nat)} (h : p.Enacts N d places outputs os k q parameters new)

include h

theorem measures : List.Forall₂ (Measures N) k.arrays (d.arrays ++ new.map fun n => d.lengthsOf n.1) := by
  rw [h.lowers.arrays]
  refine List.rel_append h.follows.arrays ?_
  rw [List.forall₂_map_left_iff, List.forall₂_map_right_iff]
  refine ((List.forall₂_and_left _ _).2 ⟨fun o ho => ho, h.new⟩).imp fun o n ⟨ho, hplace, _⟩ => ?_
  obtain ⟨r, v, hr, _, _, hv, hlengths⟩ := h.exists_stored ho hplace
  rw [Draft.lengthsOf, hv, Option.map_some, Option.getD_some, hlengths]
  exact ⟨hr.lengths, hr.used⟩

theorem begins {inputs : List (String × Array α)} {data : List (Nat × Array α)}
    (hbound : ∀ name ∈ k.parameters, parameters.value? name = some (Word.signed (N.value name)))
    (hdata : ∀ (n : Nat) a, k.arrays[n]? = some a → inputs.reverse.lookup a.name = data.reverse.lookup n) :
    Option.Rel k.Mirrors (k.arrays.foldlM (Memory.declare parameters) (Memory.ofInputs inputs)).toOption
      (((d.arrays ++ new.map fun n => d.lengthsOf n.1).map (List.map N.count)).zipIdx.mapM fun a =>
        Draft.bufferOf? data a.2 a.1) := by
  have hlengths : List.Forall₂ (fun a l => a.shape.extents.mapM (Extent.lengthIn parameters) = .ok l) k.arrays
      ((d.arrays ++ new.map fun n => d.lengthsOf n.1).map (List.map N.count)) := by
    rw [List.forall₂_map_right_iff]
    refine ((List.forall₂_and_left _ _).2 ⟨fun a ha => ha, h.measures⟩).imp fun a l ⟨ha, hmeasures⟩ => ?_
    rw [← hmeasures.1]
    refine N.mapM_lengthIn hmeasures.2 fun name hname => hbound name (List.mem_eraseDups.2 (List.mem_append_right _ ?_))
    exact List.mem_flatMap.2 ⟨a, ha, List.mem_filterMap.2 ⟨_, hname, rfl⟩⟩
  have hbuffers : ∀ (n : Nat) a, k.arrays[n]? = some a →
      (Memory.ofInputs inputs).buffer? a.name = (data.reverse.lookup (0 + n)).map Buffer.ofArray := fun n a ha => by
    rw [Memory.buffer?_ofInputs, hdata n a ha, Nat.zero_add]
  have hrel := Memory.rel_declare hlengths (h.lowers.arrays_nodup h.follows.wellFormed) hbuffers
  exact rel_mono hrel fun m buffers ⟨hlength, hbuffers, _⟩ => ⟨hlength, hbuffers⟩

theorem exists_output {a : Handle} {r : Drafted} (ha : a ∈ outputs) (hr : p.Renders N d places a r) :
    ∃ x declaration, (d.holding new).find? (fun x => x.value = r.value) = some x ∧
      k.arrays[x.array]? = some declaration ∧ k.outputArray? a = some declaration.name := by
  obtain ⟨entry, hentry, houtput⟩ := h.lowers.exists_output h.follows.wellFormed ha
  obtain ⟨j, rule, hj, hrule, hname⟩ := hr.rule
  rcases h.find?_eq hj hrule with ⟨hnone, _⟩ | ⟨entry', x, hshows, hentry', hfind⟩
  · rw [hname, hentry] at hnone
    cases hnone
  · rw [hname] at hentry'
    obtain rfl := Option.some.inj (hentry.symm.trans hentry')
    obtain ⟨declaration, hdeclaration, hsame⟩ := hshows.array
    exact ⟨x, declaration, hfind, hdeclaration, houtput.trans (congrArg some hsame.symm)⟩

end Whole

/-- An execution fails where that of the draft fails, and ends with the same buffers otherwise. -/
theorem execute [ExactOrigin α] [StableIndices α] {wanted : List Nat}
    (h : p.Enacts N d places outputs os k q parameters (d.given wanted))
    {inputs : List (String × Array α)} {data : List (Nat × Array α)}
    (hbound : ∀ name ∈ k.parameters, parameters.value? name = some (Word.signed (N.value name)))
    (hdata : ∀ (n : Nat) a, k.arrays[n]? = some a → inputs.reverse.lookup a.name = data.reverse.lookup n) :
    Option.Rel k.Mirrors (k.execute parameters inputs).toOption (d.execute? N.count wanted data) := by
  rw [Kernel.execute, toOption_bind]
  exact rel_bind (h.begins hbound hdata) fun m buffers hm => h.executes hm

end Enacts

end Plan

end ArrayPlan
