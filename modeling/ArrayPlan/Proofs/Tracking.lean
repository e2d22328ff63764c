import ArrayPlan.Proofs.Carrying

/-!
Scripts along a draft. The draft takes the steps of a script that succeed, and has no part in those that are refused. An
execution of the kernel that the plan of the script is lowered into goes as that of the draft.
-/

namespace ArrayPlan

open Interpretation

variable {α : Type} [Scalar α] {N : Numbering}

namespace Progress

variable {s : Progress} {d : Draft α} {places : List Nat} {op : Operation Nat}

/-- What a script has for results is what the draft has at the same places. -/
structure Tracks (N : Numbering) (s : Progress) (d : Draft α) (places : List Nat) : Prop where
  plan : s.plan.Follows N d places
  length : d.results.length = s.results.length
  finds : s.plan.FindsDrafted N d places s.find

theorem tracks_start (N : Numbering) (id : Nat) (settings : Settings) :
    (start (.empty id settings)).Tracks N (Draft.empty : Draft α) [] where
  plan := {
    wellFormed := Plan.empty_wellFormed id settings
    isOpen := rfl
    count := rfl
    increasing := .nil
    placed := by simp
    values := by simp
    arrays := .nil
    held := .nil
    queue := .nil
    domains := fun a ha => nomatch ha }
  length := rfl
  finds := fun place h hfind => by simp [start, find] at hfind

namespace Tracks

variable (hs : s.Tracks N d places)

include hs

theorem exists_find (hcomplete : ∀ result ∈ s.results, result.isSome) {place : Nat} {r : Drafted}
    (hr : d.results[place]? = some r) : ∃ h, s.find place = .ok h ∧ s.plan.Renders N d places h r := by
  have hlt := hs.length ▸ (List.getElem?_eq_some_iff.1 hr).1
  obtain ⟨h, hh⟩ := Option.isSome_iff_exists.1 (hcomplete _ (List.getElem_mem hlt))
  have hfind : s.find place = .ok h := find_eq_ok.2 (List.getElem?_eq_some_iff.2 ⟨hlt, hh⟩)
  obtain ⟨r', hr', hrenders⟩ := hs.finds place h hfind
  obtain rfl := Option.some.inj (hr.symm.trans hr')
  exact ⟨h, hfind, hrenders⟩

theorem push {h : Handle} {p' : Plan} {d' : Draft α} (hadvanced : s.plan.Advanced N d places h p' d') :
    ∃ places', (⟨s.results ++ [some h], p'⟩ : Progress).Tracks N d' places' := by
  obtain ⟨places', r, hfollows, hgrown, hresults, hrenders⟩ := hadvanced
  refine ⟨places', hfollows, by rw [hresults, List.length_append, List.length_append, hs.length]; rfl, fun place a hfind => ?_⟩
  rw [hresults]
  rcases (find_append _ _ _ _).1 hfind with hfind | ⟨rfl, hlast⟩
  · obtain ⟨r', hr', hrenders'⟩ := hs.finds place a hfind
    exact ⟨r', by rw [List.getElem?_append_left (List.getElem?_eq_some_iff.1 hr').1, hr'], hgrown.renders hrenders'⟩
  · obtain rfl := Option.some.inj hlast
    exact ⟨r, by rw [← hs.length, List.getElem?_concat_length], hrenders⟩

theorem skip {p' : Plan} (hdraws : s.plan.OnlyDraws p') (r : Drafted) :
    (⟨s.results ++ [none], p'⟩ : Progress).Tracks N { d with results := d.results ++ [r] } places := by
  have hsame := hdraws.same
  obtain ⟨hfollows, hgrown⟩ := hs.plan.alone (hdraws.wellFormed hs.plan.wellFormed) hdraws.extends (by rw [hsame])
    (by rw [hsame]) (by rw [hsame]) (by rw [hsame]) (d.results ++ [r])
  refine ⟨hfollows, by simp [hs.length], fun place a hfind => ?_⟩
  rcases (find_append _ _ _ _).1 hfind with hfind | ⟨_, hlast⟩
  · obtain ⟨r', hr', hrenders'⟩ := hs.finds place a hfind
    exact ⟨r', by rw [List.getElem?_append_left (List.getElem?_eq_some_iff.1 hr').1, hr'], hgrown.renders hrenders'⟩
  · cases hlast

theorem step [ExactOrigin α] [StableIndices α] {resolved : Operation Handle} {h : Handle} {p' : Plan}
    (hresolve : op.resolve s.find = .ok resolved) (hrun : resolved.perform.runOn s.plan = (.ok h, p'))
    (hused : N.Uses op.named) (hwithin : op.WithinUnits N.value s.find) :
    s.step op = ⟨s.results ++ [some h], p'⟩ ∧ p'.settings = s.plan.settings ∧ ∃ d' places',
      d.perform? N.value s.plan.settings.elementType op = some d' ∧ (s.step op).Tracks N d' places' := by
  have hstep : s.step op = ⟨s.results ++ [some h], p'⟩ := by
    simp only [Progress.step, hresolve, hrun]
    rfl
  obtain ⟨d', hd', hadvanced⟩ := hs.plan.perform hs.finds hresolve hrun hused hwithin
  obtain ⟨places', htracks⟩ := hs.push hadvanced
  obtain ⟨_, _, _, hgrown, _⟩ := hadvanced
  exact ⟨hstep, hgrown.plan.settings, d', places', hd', hstep ▸ htracks⟩

end Tracks

end Progress

section Executing

/-- Data for the arrays that hold the results at some places, once the plan is lowered. -/
def Progress.inputsFor (s : Progress) (q : Plan) (data : List (Nat × Array α)) : List (String × Array α) :=
  data.filterMap fun x => ((s.find x.1).toOption.bind fun h => q.backing.array? h.rule).map (·, x.2)

def Draft.arrayFor? (d : Draft α) (new : List (Nat × Nat)) (value : Nat) : Option Nat :=
  ((d.holding new).find? fun h => h.value = value).map Held.array

def Draft.inputsFor (d : Draft α) (new : List (Nat × Nat)) (data : List (Nat × Array α)) : List (Nat × Array α) :=
  data.filterMap fun x => ((d.results[x.1]?).bind fun r => d.arrayFor? new r.value).map (·, x.2)

omit [Scalar α] in
theorem Progress.inputsFor_found (s : Progress) (q : Plan) (data : List (Nat × Array α)) :
    s.inputsFor q (data.filter fun x => (s.find x.1).toOption.isSome) = s.inputsFor q data := by
  rw [inputsFor, inputsFor, List.filterMap_filter]
  refine congrArg (List.filterMap · data) (funext fun x => ?_)
  split
  · rfl
  · rename_i hnone
    rw [Option.not_isSome_iff_eq_none.1 hnone]
    rfl

omit [Scalar α] in
theorem Progress.exists_found (s : Progress) (data : List (Nat × Array α)) :
    ∀ x ∈ data.filter fun x => (s.find x.1).toOption.isSome, ∃ a, s.find x.1 = .ok a := by
  intro x hx
  obtain ⟨a, ha⟩ := Option.isSome_iff_exists.1 (List.mem_filter.1 hx).2
  exact ⟨a, toOption_eq_some.1 ha⟩

omit [Scalar α] in
theorem lookup_congr {xs : List (String × Array α)} {ys : List (Nat × Array α)} {name : String} {n : Nat}
    (h : List.Forall₂ (fun x y => x.2 = y.2 ∧ (x.1 = name ↔ y.1 = n)) xs ys) : xs.lookup name = ys.lookup n := by
  induction h with
  | nil => rfl
  | @cons x y xs ys hxy _ ih =>
    obtain ⟨hdata, hkey⟩ := hxy
    rw [List.lookup_cons, List.lookup_cons, ih, hdata]
    by_cases hname : x.1 = name
    · rw [hname, hkey.1 hname, beq_self_eq_true, beq_self_eq_true]
    · rw [beq_eq_false_iff_ne.2 (Ne.symm hname), beq_eq_false_iff_ne.2 fun hn => hname (hkey.2 hn.symm)]

variable {s : Progress} {d : Draft α} {places : List Nat} {handles : List Handle} {rs : List Drafted}
  {os : List Realization} {k : Kernel} {q : Plan} {parameters : Env} {new : List (Nat × Nat)}

theorem Progress.Tracks.rel_array (hs : s.Tracks N d places)
    (h : s.plan.Enacts N d places handles os k q parameters new) {place : Nat} {handle : Handle}
    (hfind : s.find place = .ok handle) :
    Option.Rel (fun name n => ∃ a, k.arrays[n]? = some a ∧ a.name = name) (q.backing.array? handle.rule)
      ((d.results[place]?).bind fun r => d.arrayFor? new r.value) := by
  obtain ⟨r, hr, hrenders⟩ := hs.finds place handle hfind
  obtain ⟨j, rule, hj, hrule, hname⟩ := hrenders.rule
  rw [hr, Option.bind_some, BackingTable.array?, Draft.arrayFor?, ← hname]
  rcases h.find?_eq hj hrule with ⟨hnone, hnone'⟩ | ⟨entry, x, hshows, hentry, hx⟩
  · rw [hnone, hnone']
    exact .none
  · rw [hentry, hx]
    exact .some hshows.array

theorem Progress.Tracks.lookup_inputsFor (hs : s.Tracks N d places)
    (h : s.plan.Enacts N d places handles os k q parameters new) {data : List (Nat × Array α)}
    (hfound : ∀ x ∈ data, ∃ a, s.find x.1 = .ok a) {n : Nat} {a : Declaration} (ha : k.arrays[n]? = some a) :
    (s.inputsFor q data).reverse.lookup a.name = (d.inputsFor new data).reverse.lookup n := by
  have hnodup := h.lowers.arrays_nodup h.follows.wellFormed
  refine lookup_congr (List.forall₂_reverse_iff.2 ?_)
  refine List.rel_filterMap (R := fun x y => x = y ∧ ∃ a, s.find x.1 = .ok a) ?_
    (List.forall₂_same.2 fun x hx => ⟨rfl, hfound x hx⟩)
  rintro x _ ⟨rfl, handle, hfind⟩
  have hrel := hs.rel_array h hfind
  simp only [hfind, Except.toOption, Option.bind_some]
  generalize q.backing.array? handle.rule = name at hrel ⊢
  generalize ((d.results[x.1]?).bind fun r => d.arrayFor? new r.value) = i at hrel ⊢
  cases hrel with
  | none => exact .none
  | some hboth =>
    obtain ⟨b, hb, rfl⟩ := hboth
    exact .some ⟨rfl, name_eq_iff hnodup ha hb⟩

variable [ExactOrigin α] [StableIndices α]

theorem Progress.Tracks.execute {withStores : Bool} (hs : s.Tracks N d places)
    (hrs : List.Forall₂ (s.plan.Renders N d places) handles rs)
    (hfinalize : (Build.finalize handles withStores).runOn s.plan = (.ok k, q))
    (hunowned : ∀ name, N.used name → name ∉ k.domains.flatMap Domain.vars)
    (hparameters : ∀ name, parameters.value? name = if name ∈ k.parameters then some (Word.signed (N.value name)) else none)
    {data : List (Nat × Array α)} (hfound : ∀ x ∈ data, ∃ a, s.find x.1 = .ok a) :
    Option.Rel (fun m buffers => List.Forall₂ (fun h value => ∃ array b, k.outputArray? h = some array ∧
        m.buffer? array = some b ∧
          (d.arrayFor? (d.given (rs.map Drafted.value)) value).bind (buffers[·]?) = some b)
        handles (rs.map Drafted.value))
      (k.execute parameters (s.inputsFor q data)).toOption
      (d.execute? N.count (rs.map Drafted.value) (d.inputsFor (d.given (rs.map Drafted.value)) data)) := by
  obtain ⟨os, hl⟩ := Plan.finalize_lowers hs.plan.wellFormed hfinalize
  have hbound : ∀ name ∈ k.parameters, parameters.value? name = some (Word.signed (N.value name)) := fun name hname => by
    rw [hparameters, if_pos hname]
  have hothers : ∀ name, name ∉ k.parameters → parameters.value? name = none := fun name hname => by
    rw [hparameters, if_neg hname]
  have hrenders : ∀ h ∈ handles, ∃ r, s.plan.Renders N d places h r := fun h hh => by
    obtain ⟨r, _, hr⟩ := exists_of_forall₂ hrs hh
    exact ⟨r, hr⟩
  have h := hs.plan.enacts hl hrs (hs.plan.surroundings hl hrenders hunowned hbound hothers)
  refine rel_mono (h.execute hbound fun n a ha => hs.lookup_inputsFor h hfound ha) fun m buffers hm => ?_
  rw [List.forall₂_map_right_iff]
  refine ((List.forall₂_and_left _ _).2 ⟨fun h hh => hh, hrs⟩).imp fun a r ⟨ha, hr⟩ => ?_
  obtain ⟨x, declaration, hx, hdeclaration, houtput⟩ := h.exists_output ha hr
  have hlt : x.array < buffers.length := hm.length ▸ (List.getElem?_eq_some_iff.1 hdeclaration).1
  refine ⟨declaration.name, buffers[x.array], houtput, ?_, ?_⟩
  · rw [hm.buffer x.array declaration hdeclaration, List.getElem?_eq_getElem hlt]
  · rw [Draft.arrayFor?, hx, Option.map_some, Option.bind_some, List.getElem?_eq_getElem hlt]

end Executing

/-- Both executions fail, or the arrays that are bound to handles of the two kernels have the same elements. -/
def Kernel.AgreeFor (k k' : Kernel) (handles handles' : List Handle) :
    Except ExecutionFault (Memory α) → Except ExecutionFault (Memory α) → Prop
  | .ok m, .ok m' => List.Forall₂ (fun h h' => ∃ array array' b, k.outputArray? h = some array ∧
      k'.outputArray? h' = some array' ∧ m.buffer? array = some b ∧ m'.buffer? array' = some b) handles handles'
  | .error _, .error _ => True
  | _, _ => False

omit [Scalar α] in
theorem Kernel.agreeFor_of_rel {k k' : Kernel} {handles handles' : List Handle} {values : List Nat}
    {x x' : Except ExecutionFault (Memory α)} {y : Option (List (Buffer α))}
    {final : Nat → List (Buffer α) → Option (Buffer α)}
    (h : Option.Rel (fun m buffers => List.Forall₂ (fun h value => ∃ array b, k.outputArray? h = some array ∧
      m.buffer? array = some b ∧ final value buffers = some b) handles values) x.toOption y)
    (h' : Option.Rel (fun m buffers => List.Forall₂ (fun h value => ∃ array b, k'.outputArray? h = some array ∧
      m.buffer? array = some b ∧ final value buffers = some b) handles' values) x'.toOption y) :
    k.AgreeFor k' handles handles' x x' := by
  cases x with
  | error e =>
    cases h
    cases x' with
    | error e' => trivial
    | ok m' => cases h'
  | ok m =>
    cases h with
    | some hall =>
      cases x' with
      | error e' => cases h'
      | ok m' =>
        cases h' with
        | some hall' =>
          refine List.forall₂_iff_get.2 ⟨hall.length_eq.trans hall'.length_eq.symm, fun i hi hi' => ?_⟩
          obtain ⟨array, b, houtput, hb, hfinal⟩ := hall.get hi (hall.length_eq ▸ hi)
          obtain ⟨array', b', houtput', hb', hfinal'⟩ := hall'.get hi' (hall'.length_eq ▸ hi')
          obtain rfl := Option.some.inj (hfinal.symm.trans hfinal')
          exact ⟨array, array', b, houtput, houtput', hb, hb'⟩

end ArrayPlan
