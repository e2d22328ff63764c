import ArrayPlan.Proofs.Outlines
import ArrayPlan.Proofs.Tracking

/-!
Scripts side by side. Two plans that hold results of the same shapes and types take the same further operations, and hold
such results again. Where the results have the same elements as well, and a layout that differs is asked of none of them,
the further results have the same elements, whatever rules the plans have for them.
-/

namespace ArrayPlan

open Interpretation

theorem Operation.mem_refs_of_subject {op : Operation Handle} {a : Handle} (h : op.subject? = some a) : a ∈ op.refs := by
  cases op with
  | full | fill | range | input | inputNamed => cases h
  | _ =>
    obtain rfl := Option.some.inj h
    exact List.mem_cons_self

namespace Progress

structure Stands (s : Progress) : Prop where
  wellFormed : s.plan.WellFormed
  isOpen : s.plan.finalized = false
  live : ∀ place a, s.find place = .ok a → s.plan.Live a

variable {s s' : Progress} {op : Operation Nat} {resolved : Operation Handle} {withLayout : Bool}

theorem find_map (s : Progress) (f : Handle → Handle) (place : Nat) :
    (s.find place).map f = (⟨s.results.map (Option.map f), s.plan⟩ : Progress).find place := by
  rw [find, find, List.getElem?_map]
  cases s.results[place]? with
  | none => rfl
  | some result => cases result <;> rfl

namespace Stands

variable (hs : s.Stands)

include hs

theorem live_of_resolve (hresolve : op.resolve s.find = .ok resolved) : ∀ a ∈ resolved.refs, s.plan.Live a := by
  intro a ha
  obtain ⟨place, hplace⟩ := refs_resolve hresolve ha
  exact hs.live place a hplace

theorem push {result : Option Handle} {p' : Plan} (hextends : s.plan.Extends p') (hp' : p'.WellFormed)
    (hlast : ∀ a, result = some a → p'.Live a) : (⟨s.results ++ [result], p'⟩ : Progress).Stands where
  wellFormed := hp'
  isOpen := hextends.finalized.trans hs.isOpen
  live place a hfind := by
    rcases (find_append _ _ _ _).1 hfind with hfind | ⟨_, hresult⟩
    · exact hextends.live (hs.live place a hfind)
    · exact hlast a hresult

theorem step_decides (hresolve : op.resolve s.find = .ok resolved) :
    (resolved.Admissible s.plan ∧ ∃ h p', resolved.perform.runOn s.plan = (.ok h, p') ∧ s.plan.Advances h p' ∧
      s.step op = ⟨s.results ++ [some h], p'⟩) ∨
    (¬ resolved.Admissible s.plan ∧ ∃ p', s.plan.OnlyDraws p' ∧ s.step op = ⟨s.results ++ [none], p'⟩) := by
  have hlive := hs.live_of_resolve hresolve
  have hdecides := Plan.perform_decides hs.wellFormed hs.isOpen resolved
    (fun a ha => hlive a (Operation.mem_refs_of_subject ha)) fun a ha _ => hlive a ha
  have houtcome := Plan.perform_outcome hs.wellFormed resolved fun a ha _ => hlive a ha
  unfold Build.Outcome at houtcome
  cases hrun : resolved.perform.runOn s.plan with
  | mk outcome p' =>
    rw [hrun] at houtcome
    have hstep : s.step op = ⟨s.results ++ [outcome.toOption], p'⟩ := by simp only [step, hresolve, hrun]
    cases outcome with
    | ok h => exact .inl ⟨hdecides.ok_iff.1 ⟨h, p', hrun⟩, h, p', rfl, houtcome, hstep⟩
    | error e =>
      refine .inr ⟨fun hadmissible => ?_, p', houtcome, hstep⟩
      obtain ⟨h, q, hok⟩ := hdecides.ok_iff.2 hadmissible
      rw [hrun] at hok
      cases hok

end Stands

/-- Two plans whose results look alike at all places. -/
structure Parallel (withLayout : Bool) (s s' : Progress) : Prop where
  first : s.Stands
  second : s'.Stands
  id : s'.plan.id = s.plan.id
  settings : s'.plan.settings = s.plan.settings
  results : s'.results.map (Option.map (Handle.outline withLayout)) = s.results.map (Option.map (Handle.outline withLayout))

inductive StepsAlike (s s' : Progress) (op : Operation Nat) : Prop where
  | taken {resolved resolved' : Operation Handle} {h h' : Handle} {p p' : Plan} (hresolve : op.resolve s.find = .ok resolved)
      (hrun : resolved.perform.runOn s.plan = (.ok h, p)) (hresolve' : op.resolve s'.find = .ok resolved')
      (hrun' : resolved'.perform.runOn s'.plan = (.ok h', p'))
  | refused {p p' : Plan} (hdraws : s.plan.OnlyDraws p) (hstep : s.step op = ⟨s.results ++ [none], p⟩)
      (hdraws' : s'.plan.OnlyDraws p') (hstep' : s'.step op = ⟨s'.results ++ [none], p'⟩)

def NamesAlike (s s' : Progress) (ops : List (Operation Nat)) : Prop :=
  ∀ before op later name, ops = before ++ op :: later → op.inputName? = some name →
    (name ∈ (s'.run before).plan.names.taken ↔ name ∈ (s.run before).plan.names.taken)

namespace Parallel

variable (hs : Parallel withLayout s s')

include hs

theorem find (place : Nat) :
    (s'.find place).map (Handle.outline withLayout) = (s.find place).map (Handle.outline withLayout) := by
  rw [find_map, find_map, Progress.find, Progress.find, hs.results]

theorem resolve (op : Operation Nat) : (op.resolve s'.find).map (Operation.map (Handle.outline withLayout)) =
    (op.resolve s.find).map (Operation.map (Handle.outline withLayout)) := by
  have hshape : ∀ h : Handle, (h.outline withLayout).shape = h.shape := fun _ => rfl
  rw [Operation.resolve_map hshape, Operation.resolve_map hshape, funext hs.find]

theorem push {result result' : Option Handle} {p p' : Plan} (hfirst : (⟨s.results ++ [result], p⟩ : Progress).Stands)
    (hsecond : (⟨s'.results ++ [result'], p'⟩ : Progress).Stands) (hextends : s.plan.Extends p)
    (hextends' : s'.plan.Extends p')
    (hlast : result'.map (Handle.outline withLayout) = result.map (Handle.outline withLayout)) :
    Parallel withLayout ⟨s.results ++ [result], p⟩ ⟨s'.results ++ [result'], p'⟩ where
  first := hfirst
  second := hsecond
  id := hextends'.id.trans (hs.id.trans hextends.id.symm)
  settings := hextends'.settings.trans (hs.settings.trans hextends.settings.symm)
  results := by rw [List.map_append, List.map_append, hs.results, List.map_singleton, List.map_singleton, hlast]

theorem refuse {p p' : Plan} (hdraws : s.plan.OnlyDraws p) (hdraws' : s'.plan.OnlyDraws p') :
    Parallel withLayout ⟨s.results ++ [none], p⟩ ⟨s'.results ++ [none], p'⟩ := by
  refine hs.push (hs.first.push hdraws.extends (hdraws.wellFormed hs.first.wellFormed) ?_)
    (hs.second.push hdraws'.extends (hdraws'.wellFormed hs.second.wellFormed) ?_) hdraws.extends hdraws'.extends rfl <;>
  exact fun _ h => nomatch h

theorem step (hnames : ∀ name, op.inputName? = some name → (name ∈ s'.plan.names.taken ↔ name ∈ s.plan.names.taken)) :
    Parallel withLayout (s.step op) (s'.step op) ∧ StepsAlike s s' op := by
  have hmap := hs.resolve op
  cases hresolve : op.resolve s.find with
  | error e =>
    rw [hresolve] at hmap
    cases hresolve' : op.resolve s'.find with
    | ok resolved' =>
      rw [hresolve'] at hmap
      cases hmap
    | error e' =>
      have hstep : s.step op = ⟨s.results ++ [none], s.plan⟩ := by simp only [Progress.step, hresolve]
      have hstep' : s'.step op = ⟨s'.results ++ [none], s'.plan⟩ := by simp only [Progress.step, hresolve']
      rw [hstep, hstep']
      exact ⟨hs.refuse (.refl _) (.refl _), .refused (.refl _) hstep (.refl _) hstep'⟩
  | ok resolved =>
    obtain ⟨resolved', hresolve', hsame⟩ := map_eq_ok (hmap.trans (by rw [hresolve]; rfl))
    have hadmissible : resolved'.Admissible s'.plan ↔ resolved.Admissible s.plan := by
      rw [← @Operation.admissible_outline _ withLayout, hsame, Operation.admissible_outline]
      refine Operation.admissible_congr hs.id hs.settings fun name hname => hnames name ?_
      rw [← Operation.inputName?_resolve hresolve, hname]
    rcases hs.first.step_decides hresolve with ⟨hok, h, p, hrun, hadvances, hstep⟩ | ⟨hnot, p, hdraws, hstep⟩ <;>
      rcases hs.second.step_decides hresolve' with ⟨hok', h', p', hrun', hadvances', hstep'⟩ | ⟨hnot', p', hdraws', hstep'⟩
    · rw [hstep, hstep']
      refine ⟨hs.push (hs.first.push hadvances.extends_ hadvances.wellFormed ?_)
        (hs.second.push hadvances'.extends_ hadvances'.wellFormed ?_) hadvances.extends_ hadvances'.extends_
        (congrArg some ?_), .taken hresolve hrun hresolve' hrun'⟩
      · exact fun a ha => Option.some.inj ha ▸ hadvances.live
      · exact fun a ha => Option.some.inj ha ▸ hadvances'.live
      exact Plan.perform_outline hs.first.wellFormed hs.second.wellFormed
        (fun a ha _ => hs.first.live_of_resolve hresolve a ha) (fun a ha _ => hs.second.live_of_resolve hresolve' a ha)
        hs.id hs.settings hsame hrun hrun'
    · exact absurd (hadmissible.2 hok) hnot'
    · exact absurd (hadmissible.1 hok') hnot
    · rw [hstep, hstep']
      exact ⟨hs.refuse hdraws hdraws', .refused hdraws hstep hdraws' hstep'⟩

end Parallel

theorem NamesAlike.step {ops : List (Operation Nat)} (h : NamesAlike s s' (op :: ops)) :
    (∀ name, op.inputName? = some name → (name ∈ s'.plan.names.taken ↔ name ∈ s.plan.names.taken)) ∧
      NamesAlike (s.step op) (s'.step op) ops :=
  ⟨fun name => h [] op ops name rfl, fun before op' later name hops => h (op :: before) op' later name (by rw [hops]; rfl)⟩

theorem Parallel.run {ops : List (Operation Nat)} (hs : Parallel withLayout s s') (hnames : NamesAlike s s' ops) :
    Parallel withLayout (s.run ops) (s'.run ops) := by
  induction ops generalizing s s' with
  | nil => exact hs
  | cons op ops ih => exact ih (hs.step hnames.step.1).1 hnames.step.2

end Progress

section Outlines

def Drafted.outline (r : Drafted) : Drafted :=
  { r with layout := .rowMajor }

@[simp] theorem Drafted.outline_outline (r : Drafted) : r.outline.outline = r.outline :=
  rfl

theorem Drafted.eq_of_outline {r r' : Drafted} (houtline : r'.outline = r.outline) (hlayout : r'.layout = r.layout) :
    r' = r := by
  cases r
  cases r'
  cases houtline
  cases hlayout
  rfl

variable {α : Type} {values : String → Nat} {find : Nat → Option Drafted}

theorem Index.mapRef?_outline (entry : Index Nat) :
    entry.mapRef? (fun r => (find r).map Drafted.outline) = (entry.mapRef? find).map (Index.map Drafted.outline) := by
  cases entry with
  | gather r =>
    rw [mapRef?, mapRef?]
    cases find r <;> rfl
  | _ => rfl

theorem mapM_mapRef?_outline (index : List (Index Nat)) :
    index.mapM (Index.mapRef? fun r => (find r).map Drafted.outline) =
      (index.mapM (Index.mapRef? find)).map (List.map (Index.map Drafted.outline)) := by
  induction index with
  | nil => rfl
  | cons entry index ih =>
    rw [List.mapM_cons, List.mapM_cons, ih, Index.mapRef?_outline]
    cases entry.mapRef? find with
    | none => rfl
    | some entry => cases index.mapM (Index.mapRef? find) <;> rfl

theorem Operand.mapRef?_outline (value : Operand Nat) :
    value.mapRef? (fun r => (find r).map Drafted.outline) = (value.mapRef? find).map (Operand.map Drafted.outline) := by
  cases value with
  | literal value => rfl
  | array r =>
    rw [mapRef?, mapRef?]
    cases find r <;> rfl

variable [Scalar α]

namespace Errand

omit [Scalar α] in
theorem region_outline (entries : List (Index Drafted)) (lengths : List Nat) :
    region (entries.map (Index.map Drafted.outline)) lengths = region entries lengths := by
  induction entries generalizing lengths with
  | nil => cases lengths <;> rfl
  | cons entry entries ih =>
    cases lengths with
    | nil => cases entry <;> rfl
    | cons n lengths =>
      cases entry with
      | «at» position => exact ih lengths
      | _ => exact congrArg _ (ih lengths)

theorem addressed_outline (o : Oracle α) (entries : List (Index Drafted)) (point : List Int) :
    addressed o (entries.map (Index.map Drafted.outline)) point = addressed o entries point := by
  induction entries generalizing point with
  | nil => cases point <;> rfl
  | cons entry entries ih =>
    cases entry with
    | «at» position =>
      exact congrArg (Option.map _) (ih point)
    | gather positions =>
      cases point with
      | nil => rfl
      | cons i point => exact congrArg (Option.bind _) (funext fun x => congrArg (Option.map _) (ih point))
    | _ =>
      cases point with
      | nil => rfl
      | cons i point => exact congrArg (Option.map _) (ih point)

theorem write_outline (due array : Nat) (a : Drafted) (entries : List (Index Drafted)) (value : Operand Drafted) :
    (write due array a.outline (entries.map (Index.map Drafted.outline)) (value.map Drafted.outline) : Errand α) =
      write due array a entries value := by
  have hvalue : ∀ (o : Oracle α) point, written a.elementType o point (value.map Drafted.outline) =
      written a.elementType o point value := fun o point => by cases value <;> rfl
  have hlengths : a.outline.lengths = a.lengths := rfl
  have htype : a.outline.elementType = a.elementType := rfl
  rw [write, write, hlengths, htype, region_outline]
  simp only [addressed_outline, hvalue]

end Errand

namespace Draft

omit [Scalar α] in
/-- The draft without the layouts of its results. -/
def outline (d : Draft α) : Draft α :=
  { d with results := d.results.map Drafted.outline }

variable (d : Draft α)

omit [Scalar α] in
theorem results_outline (place : Nat) : d.outline.results[place]? = (d.results[place]?).map Drafted.outline :=
  List.getElem?_map ..

omit [Scalar α] in
theorem lengths?_outline (shape : ShapeSource Nat) : d.outline.lengths? values shape = d.lengths? values shape := by
  cases shape with
  | extents es => rfl
  | like a =>
    rw [lengths?, lengths?, results_outline]
    cases d.results[a]? <;> rfl

omit [Scalar α] in
theorem outline_define (v : Deferred α) (elementType : ElementType) (layout layout' : Layout) :
    (d.outline.define v elementType layout).outline = (d.define v elementType layout').outline := by
  simp [define, outline, Drafted.outline]

omit [Scalar α] in
theorem outline_declare (lengths : List Nat) (elementType : ElementType) :
    (d.outline.declare lengths elementType).outline = (d.declare lengths elementType).outline := by
  simp [declare, define, outline, Drafted.outline]

theorem outline_prefixSums (a : Drafted) : (d.outline.prefixSums a.outline).outline = (d.prefixSums a).outline :=
  congrArg (fun e : Draft α => { e with queue := d.queue ++ [Errand.prefixSums d.values.length d.arrays.length a] })
    (d.outline_declare a.lengths a.elementType)

theorem outline_write (a : Drafted) (entries : List (Index Drafted)) (value : Operand Drafted) :
    (d.outline.write a.outline (entries.map (Index.map Drafted.outline)) (value.map Drafted.outline)).outline =
      (d.write a entries value).outline := by
  have harray : d.outline.arrayOf? a.outline.value = d.arrayOf? a.value := rfl
  have hcopy : ∀ due array, (Errand.copy due array a.outline : Errand α) = .copy due array a := fun _ _ => rfl
  have hresult : ∀ value, Drafted.outline { a.outline with value } = Drafted.outline { a with value } := fun _ => rfl
  rw [write, write, harray]
  cases d.arrayOf? a.value with
  | none =>
    simp only [outline, Errand.write_outline, hcopy, List.map_append, List.map_map, Function.comp_def,
      Drafted.outline_outline, List.map_cons, List.map_nil, hresult]
    rfl
  | some array =>
    simp only [outline, Errand.write_outline, List.map_append, List.map_map, Function.comp_def, Drafted.outline_outline,
      List.map_cons, List.map_nil]

theorem perform?_outline {op : Operation Nat} (hop : ∀ a shape layout, op ≠ .reshape a shape layout)
    (elementType : ElementType) : (d.outline.perform? values elementType op).map outline =
      (d.perform? values elementType op).map outline := by
  cases op with
  | full shape value elementType | fill shape value =>
    rw [perform?, perform?, lengths?_outline]
    cases d.lengths? values shape with
    | none => rfl
    | some lengths => exact congrArg some (d.outline_define _ _ _ _)
  | range stop => exact congrArg some (d.outline_define _ _ _ _)
  | input shape elementType | inputNamed name shape elementType =>
    rw [perform?, perform?, lengths?_outline]
    cases d.lengths? values shape with
    | none => rfl
    | some lengths => exact congrArg some (d.outline_declare _ _)
  | combine op a b =>
    cases b with
    | literal value =>
      rw [perform?, perform?, results_outline]
      cases d.results[a]? with
      | none => rfl
      | some r => exact congrArg some (d.outline_define _ _ _ _)
    | array b =>
      rw [perform?, perform?, results_outline, results_outline]
      cases d.results[a]? with
      | none => rfl
      | some r =>
        cases d.results[b]? with
        | none => rfl
        | some r' => exact congrArg some (d.outline_define _ _ _ _)
  | combineFrom op value a | select a index | sum a axes =>
    rw [perform?, perform?, results_outline]
    cases d.results[a]? with
    | none => rfl
    | some r => exact congrArg some (d.outline_define _ _ _ _)
  | reshape a shape layout => exact absurd rfl (hop a shape layout)
  | prefixSums a =>
    rw [perform?, perform?, results_outline]
    cases d.results[a]? with
    | none => rfl
    | some r => exact congrArg some (d.outline_prefixSums r)
  | write a index value =>
    rw [perform?, perform?, funext d.results_outline, mapM_mapRef?_outline, Operand.mapRef?_outline]
    dsimp only
    cases d.results[a]? with
    | none => rfl
    | some r =>
      cases index.mapM (Index.mapRef? (d.results[·]?)) with
      | none => rfl
      | some entries =>
        cases value.mapRef? (d.results[·]?) with
        | none => rfl
        | some value => exact congrArg some (d.outline_write r entries value)

theorem outline_perform {d' e e' : Draft α} {elementType : ElementType} {op : Operation Nat} (hd : d'.outline = d.outline)
    (hlayouts : ∀ a shape layout, op = .reshape a shape layout →
      ∀ r r', d.results[a]? = some r → d'.results[a]? = some r' → r'.layout = r.layout)
    (he : d.perform? values elementType op = some e) (he' : d'.perform? values elementType op = some e') :
    e'.outline = e.outline := by
  by_cases hop : ∀ a shape layout, op ≠ .reshape a shape layout
  · have hmap : (d.outline.perform? values elementType op).map outline = (d.perform? values elementType op).map outline :=
      d.perform?_outline hop elementType
    rw [← hd, d'.perform?_outline hop, he, he'] at hmap
    exact Option.some.inj hmap
  · obtain ⟨a, shape, layout, rfl⟩ : ∃ a shape layout, op = .reshape a shape layout := by simpa using hop
    have hlengths : d'.lengths? values shape = d.lengths? values shape := by
      rw [← lengths?_outline, hd, lengths?_outline]
    obtain ⟨r, hr, he⟩ := Option.bind_eq_some_iff.1 he
    obtain ⟨r', hr', he'⟩ := Option.bind_eq_some_iff.1 he'
    have houtline := d.results_outline a
    rw [← hd, results_outline, hr, hr'] at houtline
    obtain rfl := Drafted.eq_of_outline (Option.some.inj houtline) (hlayouts a shape layout rfl r r' hr hr')
    rw [hlengths] at he'
    cases hl : d.lengths? values shape with
    | none =>
      rw [hl] at he
      cases he
    | some lengths =>
      rw [hl] at he he'
      cases he
      cases he'
      rw [← d.outline_define _ _ .rowMajor, ← d'.outline_define _ _ .rowMajor, hd]

omit [Scalar α] in
theorem outline_skip {d' : Draft α} (hd : d'.outline = d.outline) (r : Drafted) :
    outline { d' with results := d'.results ++ [r] } = outline { d with results := d.results ++ [r] } := by
  simp only [outline, mk.injEq] at hd ⊢
  obtain ⟨hvalues, harrays, hheld, hqueue, hresults⟩ := hd
  exact ⟨hvalues, harrays, hheld, hqueue, by rw [List.map_append, List.map_append, hresults]⟩

omit [Scalar α] in
theorem given_outline : d.outline.given = d.given :=
  rfl

omit [Scalar α] in
theorem arrayFor?_outline : d.outline.arrayFor? = d.arrayFor? :=
  rfl

omit [Scalar α] in
theorem inputsFor_outline : d.outline.inputsFor = d.inputsFor := by
  funext new data
  refine congrArg (List.filterMap · data) (funext fun x => ?_)
  rw [results_outline]
  cases d.results[x.1]? <;> rfl

theorem execute?_outline (count : Nat → Nat) : d.outline.execute? count = d.execute? count :=
  rfl

end Draft

end Outlines

section Drafted

variable {α : Type} [Scalar α] {N : Numbering} {withLayout : Bool} {s s' : Progress} {d d' : Draft α}
  {places places' : List Nat} {op : Operation Nat}

omit [Scalar α] in
theorem Operation.withinUnits_of_ne {values : String → Nat} {find : Nat → Except Unit Handle}
    (hvalues : ∀ name, values name ≠ 1) (op : Operation Nat) : op.WithinUnits values find := by
  cases op with
  | select a index =>
    intro h _ e _
    obtain ⟨entry, extent⟩ := e
    cases entry with
    | «at» position =>
      cases extent with
      | fixed n => trivial
      | symbolic name => exact fun hone => absurd hone (hvalues name)
    | _ => trivial
  | _ => trivial

theorem Progress.Tracks.stands (hs : s.Tracks N d places) : s.Stands where
  wellFormed := hs.plan.wellFormed
  isOpen := hs.plan.isOpen
  live place a hfind := by
    obtain ⟨r, _, hrenders⟩ := hs.finds place a hfind
    exact hrenders.live

theorem Progress.Parallel.layout_eq (hs : Parallel true s s') {place : Nat} {h h' : Handle} (hfind : s.find place = .ok h)
    (hfind' : s'.find place = .ok h') : h'.layout = h.layout := by
  have hsame := hs.find place
  rw [hfind, hfind'] at hsame
  have houtline : h'.outline true = h.outline true := Except.ok.inj hsame
  have hlayout := congrArg Handle.layout houtline
  exact hlayout

theorem Progress.Tracks.layout_of_reshape (hs : s.Tracks N d places) {place : Nat} {a h : Handle} {r : Drafted} {p' : Plan}
    {shape : ShapeSource Handle} {layout : Layout} (hfind : s.find place = .ok a) (hr : d.results[place]? = some r)
    (hrun : (Operation.reshape a shape layout).perform.runOn s.plan = (.ok h, p')) : a.layout = r.layout := by
  obtain ⟨r', hr', hrenders⟩ := hs.finds place a hfind
  obtain rfl := Option.some.inj (hr.symm.trans hr')
  obtain ⟨_, _, _, _, _, _, _, hsources, _⟩ :=
    (Build.Outcome.reshape hs.plan.wellFormed (fun _ => hrenders.live) shape.axes layout).of_runOn_ok hrun
  exact hrenders.layout (Shape.fixed_of_lengths? hsources)

/-- Two plans whose results look alike, along drafts that differ in the layouts of their results at most. -/
structure Alongside (N : Numbering) (withLayout : Bool) (s s' : Progress) (d d' : Draft α) (places places' : List Nat) :
    Prop where
  parallel : Progress.Parallel withLayout s s'
  first : s.Tracks N d places
  second : s'.Tracks N d' places'
  drafts : d'.outline = d.outline

namespace Alongside

theorem refl (hs : s.Tracks N d places) : Alongside N true s s d d places places :=
  ⟨⟨hs.stands, hs.stands, rfl, rfl, rfl⟩, hs, hs, rfl⟩

variable [ExactOrigin α] [StableIndices α] (hs : Alongside N withLayout s s' d d' places places')

include hs

theorem step (hnames : ∀ name, op.inputName? = some name → (name ∈ s'.plan.names.taken ↔ name ∈ s.plan.names.taken))
    (hused : N.Uses op.named) (hvalues : ∀ name, N.value name ≠ 1)
    (hlayouts : ∀ a shape layout, op = .reshape a shape layout →
      ∀ h h', s.find a = .ok h → s'.find a = .ok h' → h'.layout = h.layout) :
    ∃ (e e' : Draft α) (ps ps' : List Nat), Alongside N withLayout (s.step op) (s'.step op) e e' ps ps' := by
  obtain ⟨hparallel, hsteps⟩ := hs.parallel.step hnames
  cases hsteps with
  | refused hdraws hstep hdraws' hstep' =>
    exact ⟨_, _, _, _, hparallel, hstep ▸ hs.first.skip hdraws ⟨0, [], .float64, .rowMajor⟩,
      hstep' ▸ hs.second.skip hdraws' _, d.outline_skip hs.drafts _⟩
  | taken hresolve hrun hresolve' hrun' =>
    obtain ⟨_, _, e, ps, he, htracks⟩ := hs.first.step hresolve hrun hused (op.withinUnits_of_ne hvalues)
    obtain ⟨_, _, e', ps', he', htracks'⟩ := hs.second.step hresolve' hrun' hused (op.withinUnits_of_ne hvalues)
    rw [hs.parallel.settings] at he'
    refine ⟨e, e', ps, ps', hparallel, htracks, htracks', d.outline_perform hs.drafts ?_ he he'⟩
    rintro a shape layout rfl r r' hr hr'
    cases Operation.resolve_eq_ok_iff.1 hresolve with
    | @reshape _ h _ _ hfind =>
      cases Operation.resolve_eq_ok_iff.1 hresolve' with
      | @reshape _ h' _ _ hfind' =>
        rw [← hs.first.layout_of_reshape hfind hr hrun, ← hs.second.layout_of_reshape hfind' hr' hrun']
        exact hlayouts a shape layout rfl h h' hfind hfind'

theorem run (hvalues : ∀ name, N.value name ≠ 1) {ops : List (Operation Nat)} (hnames : Progress.NamesAlike s s' ops)
    (hused : ∀ op ∈ ops, N.Uses op.named)
    (hlayouts : withLayout = true ∨ ∀ a shape layout, .reshape a shape layout ∈ ops →
      ∀ h h', (s.run ops).find a = .ok h → (s'.run ops).find a = .ok h' → h'.layout = h.layout) :
    ∃ (e e' : Draft α) (ps ps' : List Nat), Alongside N withLayout (s.run ops) (s'.run ops) e e' ps ps' := by
  induction ops generalizing s s' d d' places places' with
  | nil => exact ⟨d, d', places, places', hs⟩
  | cons op ops ih =>
    have hfirst : ∀ a shape layout, op = .reshape a shape layout →
        ∀ h h', s.find a = .ok h → s'.find a = .ok h' → h'.layout = h.layout := by
      rintro a shape layout rfl h h' hfind hfind'
      rcases hlayouts with rfl | hlayouts
      · exact hs.parallel.layout_eq hfind hfind'
      · exact hlayouts a shape layout List.mem_cons_self h h' (Progress.find_run hfind _) (Progress.find_run hfind' _)
    obtain ⟨e, e', ps, ps', hnext⟩ := hs.step hnames.step.1 (hused op List.mem_cons_self) hvalues hfirst
    refine ih hnext hnames.step.2 (fun op hop => hused op (List.mem_cons_of_mem _ hop)) (hlayouts.imp id ?_)
    exact fun hlayouts a shape layout hop => hlayouts a shape layout (List.mem_cons_of_mem _ hop)

omit [ExactOrigin α] [StableIndices α] in
theorem exists_results {outputs : List Nat} {handles : List Handle}
    (hhandles : List.Forall₂ (fun place h => s.find place = .ok h) outputs handles) :
    ∃ handles' rs rs', outputs.mapM s'.find = .ok handles' ∧ List.Forall₂ (s.plan.Renders N d places) handles rs ∧
      List.Forall₂ (s'.plan.Renders N d' places') handles' rs' ∧ rs'.map Drafted.value = rs.map Drafted.value := by
  induction hhandles with
  | nil => exact ⟨[], [], [], rfl, .nil, .nil, rfl⟩
  | @cons place h outputs handles hfind _ ih =>
    obtain ⟨handles', rs, rs', hhandles', hrs, hrs', hvalues⟩ := ih
    have hsame := hs.parallel.find place
    rw [hfind] at hsame
    obtain ⟨h', hfind', _⟩ := map_eq_ok hsame
    obtain ⟨r, hr, hrenders⟩ := hs.first.finds place h hfind
    obtain ⟨r', hr', hrenders'⟩ := hs.second.finds place h' hfind'
    have houtline := d.results_outline place
    rw [← hs.drafts, Draft.results_outline, hr, hr'] at houtline
    have hvalues' := congrArg (Option.map Drafted.value) houtline
    have hvalue : r'.value = r.value := Option.some.inj hvalues'
    refine ⟨h' :: handles', r :: rs, r' :: rs', ?_, .cons hrenders hrs, .cons hrenders' hrs', ?_⟩
    · rw [List.mapM_cons, hfind', hhandles']
      rfl
    · rw [List.map_cons, List.map_cons, hvalue, hvalues]

theorem agree {outputs : List Nat} {handles handles' : List Handle} {withStores : Bool} {k k' : Kernel} {q q' : Plan}
    {parameters parameters' : Env} (hhandles : outputs.mapM s.find = .ok handles)
    (hhandles' : outputs.mapM s'.find = .ok handles')
    (hfinalize : (Build.finalize handles withStores).runOn s.plan = (.ok k, q))
    (hfinalize' : (Build.finalize handles' withStores).runOn s'.plan = (.ok k', q'))
    (hunowned : ∀ name, N.used name → name ∉ k.domains.flatMap Domain.vars ∧ name ∉ k'.domains.flatMap Domain.vars)
    (hparameters : ∀ name, parameters.value? name =
      if name ∈ k.parameters then some (Word.signed (N.value name)) else none)
    (hparameters' : ∀ name, parameters'.value? name =
      if name ∈ k'.parameters then some (Word.signed (N.value name)) else none)
    (data : List (Nat × Array α)) :
    k.AgreeFor k' handles handles' (k.execute parameters (s.inputsFor q data))
      (k'.execute parameters' (s'.inputsFor q' data)) := by
  obtain ⟨handles'', rs, rs', hhandles'', hrs, hrs', hvalues⟩ := hs.exists_results (forall₂_of_mapM_ok hhandles)
  obtain rfl := Except.ok.inj (hhandles'.symm.trans hhandles'')
  have hfound : ∀ place, (s'.find place).toOption.isSome = (s.find place).toOption.isSome := fun place => by
    have hsame := congrArg (fun x => x.toOption.isSome) (hs.parallel.find place)
    cases hfind : s.find place <;> cases hfind' : s'.find place <;> rw [hfind, hfind'] at hsame <;> exact hsame
  have hfilter : data.filter (fun x => (s'.find x.1).toOption.isSome) =
      data.filter fun x => (s.find x.1).toOption.isSome := List.filter_congr fun x _ => hfound x.1
  have hexecute : d'.execute? N.count = d.execute? N.count := by
    rw [← d'.execute?_outline, hs.drafts, d.execute?_outline]
  have hgiven : d'.given = d.given := by rw [← d'.given_outline, hs.drafts, d.given_outline]
  have harray : d'.arrayFor? = d.arrayFor? := by rw [← d'.arrayFor?_outline, hs.drafts, d.arrayFor?_outline]
  have hinputs : d'.inputsFor = d.inputsFor := by rw [← d'.inputsFor_outline, hs.drafts, d.inputsFor_outline]
  have hfirst := hs.first.execute hrs hfinalize (fun name hname => (hunowned name hname).1) hparameters
    (s.exists_found data)
  have hsecond := hs.second.execute hrs' hfinalize' (fun name hname => (hunowned name hname).2) hparameters'
    (s'.exists_found data)
  rw [hfilter, hvalues, hexecute, hgiven, harray, hinputs, ← hfilter, s'.inputsFor_found, hfilter] at hsecond
  rw [s.inputsFor_found] at hfirst
  exact Kernel.agreeFor_of_rel hfirst hsecond

end Alongside

end Drafted

end ArrayPlan
