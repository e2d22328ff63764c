import ArrayPlan.Proofs.Footprints

/-!
What has a part in the elements that an array holds in the end. A statement that stores into such an array passes on
what it reads, and demands the rules that it calls, directly or through other rules. A demanded rule is overtaken by
a statement that writes what the rule reads, before or while the rule is called.
-/

namespace ArrayPlan

namespace Kernel

/-- The expression calls the rule, directly or through other rules of the kernel. -/
inductive Inlines (k : Kernel) (rule : String) : Expr → Prop where
  | call {e : Expr} (hcall : rule ∈ e.calls) : k.Inlines rule e
  | body {e : Expr} {r : Rule} (hr : r ∈ k.rules) (hcall : r.name ∈ e.calls) (hbody : k.Inlines rule r.body) :
      k.Inlines rule e

def StatementInlines (k : Kernel) (rule : String) (s : Statement) : Prop :=
  k.Inlines rule s.value ∨ ∃ stored index, s.target = .load stored index ∧ ∃ e ∈ index, k.Inlines rule e

/-- What the source holds before the statements has a part in what the array holds after them. -/
def Feeds (k : Kernel) (array : String) : List Statement → String → Prop
  | [], source => source = array
  | s :: rest, source => k.Feeds array rest source ∨
      ∃ target, s.targets target = true ∧ k.Feeds array rest target ∧ k.StatementReads source s

/-- One of the statements calls the rule for what the array holds after all of them. -/
def Demands (k : Kernel) (array rule : String) : List Statement → Prop
  | [] => False
  | s :: rest => k.Demands array rule rest ∨
      ∃ target, s.targets target = true ∧ k.Feeds array rest target ∧ k.StatementInlines rule s

/-- One of the statements writes what the rule reads, and then the rule is called, by it or by a later one, for what
the array holds after all of them. -/
def Overtakes (k : Kernel) (array rule : String) (statements : List Statement) : Prop :=
  ∃ before s later, statements = before ++ s :: later ∧ k.Demands array rule (s :: later) ∧
    ∃ target, s.targets target = true ∧ k.Reads target (.call rule [])

/-- What the expression reads and calls has a part in what the array holds after the statements. -/
structure Tracks (k : Kernel) (array : String) (rest : List Statement) (e : Expr) : Prop where
  reads : ∀ source, k.Reads source e → k.Feeds array rest source
  calls : ∀ rule, k.Inlines rule e → k.Demands array rule rest

variable {k : Kernel} {array source target rule : String} {rest later : List Statement} {s : Statement} {e : Expr}
  {r : Rule}

theorem Inlines.reads (h : k.Inlines rule e) (hreads : k.Reads source (.call rule [])) : k.Reads source e := by
  induction h with
  | call hcall =>
    obtain ⟨r, hr, rfl, hbody⟩ := reads_call_iff.1 hreads
    exact .call hr hcall hbody
  | body hr hcall _ ih => exact .call hr hcall ih

theorem inlines_call_iff {name : String} : k.Inlines rule (.call name []) ↔
    rule = name ∨ ∃ r ∈ k.rules, r.name = name ∧ k.Inlines rule r.body := by
  constructor
  · rintro (hcall | ⟨hr, hcall, hbody⟩)
    · exact .inl (by simpa using hcall)
    · exact .inr ⟨_, hr, by simpa using hcall, hbody⟩
  · rintro (rfl | ⟨r, hr, rfl, hbody⟩)
    · exact .call (by simp)
    · exact .body hr (by simp) hbody

theorem Inlines.trans {name : String} (h : k.Inlines name e) (hrule : k.Inlines rule (.call name [])) :
    k.Inlines rule e := by
  induction h with
  | call hcall =>
    rcases inlines_call_iff.1 hrule with rfl | ⟨r, hr, rfl, hbody⟩
    · exact .call hcall
    · exact .body hr hcall hbody
  | body hr hcall _ ih => exact .body hr hcall ih

theorem StatementInlines.reads (h : k.StatementInlines rule s) (hreads : k.Reads source (.call rule [])) :
    k.StatementReads source s := by
  rcases h with hvalue | ⟨stored, index, htarget, e, he, hindex⟩
  · exact .inl (hvalue.reads hreads)
  · exact .inr ⟨stored, index, htarget, e, he, hindex.reads hreads⟩

theorem StatementInlines.trans {name : String} (h : k.StatementInlines name s)
    (hrule : k.Inlines rule (.call name [])) : k.StatementInlines rule s := by
  rcases h with hvalue | ⟨stored, index, htarget, e, he, hindex⟩
  · exact .inl (hvalue.trans hrule)
  · exact .inr ⟨stored, index, htarget, e, he, hindex.trans hrule⟩

theorem feeds_self (k : Kernel) (array : String) (rest : List Statement) : k.Feeds array rest array := by
  induction rest with
  | nil => rfl
  | cons s rest ih => exact .inl ih

theorem Feeds.append (h : k.Feeds array rest source) : k.Feeds array (rest ++ later) source := by
  induction rest generalizing source with
  | nil => exact h ▸ feeds_self k array later
  | cons s rest ih => exact h.imp ih fun ⟨target, htarget, hfeeds, hreads⟩ => ⟨target, htarget, ih hfeeds, hreads⟩

theorem Demands.append (h : k.Demands array rule rest) : k.Demands array rule (rest ++ later) := by
  induction rest with
  | nil => exact h.elim
  | cons s rest ih =>
    exact h.imp ih fun ⟨target, htarget, hfeeds, hinlines⟩ => ⟨target, htarget, hfeeds.append, hinlines⟩

theorem overtakes_cons_iff : k.Overtakes array rule (s :: rest) ↔
    (k.Demands array rule (s :: rest) ∧ ∃ target, s.targets target = true ∧ k.Reads target (.call rule [])) ∨
      k.Overtakes array rule rest := by
  constructor
  · rintro ⟨before, s', later, hsplit, hovertakes⟩
    cases before with
    | nil =>
      obtain ⟨rfl, rfl⟩ := List.cons.inj hsplit
      exact .inl hovertakes
    | cons _ before =>
      obtain ⟨rfl, rfl⟩ := List.cons.inj hsplit
      exact .inr ⟨before, s', later, rfl, hovertakes⟩
  · rintro (hovertakes | ⟨before, s', later, rfl, hovertakes⟩)
    · exact ⟨[], s, rest, rfl, hovertakes⟩
    · exact ⟨s :: before, s', later, rfl, hovertakes⟩

theorem not_overtakes_nil : ¬ k.Overtakes array rule [] := by
  rintro ⟨before, s, later, hsplit, _⟩
  simp at hsplit

theorem Overtakes.of_drop {n : Nat} (h : k.Overtakes array rule (rest.drop n)) : k.Overtakes array rule rest := by
  induction rest generalizing n with
  | nil => rwa [List.drop_nil] at h
  | cons s rest ih =>
    cases n with
    | zero => exact h
    | succ n => exact overtakes_cons_iff.2 (.inr (ih h))

theorem Demands.tracks (h : k.Demands array rule rest) : k.Tracks array rest (.call rule []) := by
  induction rest with
  | nil => exact h.elim
  | cons s rest ih =>
    rcases h with hrest | ⟨target, htarget, hfeeds, hinlines⟩
    · exact ⟨fun source hreads => .inl ((ih hrest).reads source hreads),
        fun name hname => .inl ((ih hrest).calls name hname)⟩
    · exact ⟨fun source hreads => .inr ⟨target, htarget, hfeeds, hinlines.reads hreads⟩,
        fun name hname => .inr ⟨target, htarget, hfeeds, hinlines.trans hname⟩⟩

theorem Tracks.body (h : k.Tracks array rest (.call r.name [])) (hr : r ∈ k.rules) : k.Tracks array rest r.body where
  reads source hreads := h.reads source (.call hr (by simp) hreads)
  calls rule hrule := h.calls rule (.body hr (by simp) hrule)

theorem Tracks.call (h : k.Tracks array rest e) (hrule : rule ∈ e.calls) : k.Tracks array rest (.call rule []) where
  reads source hreads := h.reads source ((Inlines.call hrule).reads hreads)
  calls name hname := h.calls name ((Inlines.call hrule).trans hname)

theorem feeds_of_targets (htarget : s.targets target = true) (hfeeds : k.Feeds array (s :: rest) target) :
    k.Feeds array rest target := by
  rcases hfeeds with hrest | ⟨target', htarget', hfeeds, _⟩
  · exact hrest
  · rwa [Statement.targets_inj htarget htarget']

theorem tracks_value (htarget : s.targets target = true) (hfeeds : k.Feeds array rest target) :
    k.Tracks array (s :: rest) s.value :=
  ⟨fun _ hreads => .inr ⟨target, htarget, hfeeds, .inl hreads⟩,
    fun _ hrule => .inr ⟨target, htarget, hfeeds, .inl hrule⟩⟩

theorem tracks_position {stored : String} {index : List Expr} (htarget : s.targets target = true)
    (hfeeds : k.Feeds array rest target) (hindex : s.target = .load stored index) (he : e ∈ index) :
    k.Tracks array (s :: rest) e :=
  ⟨fun _ hreads => .inr ⟨target, htarget, hfeeds, .inr ⟨stored, index, hindex, e, he, hreads⟩⟩,
    fun _ hrule => .inr ⟨target, htarget, hfeeds, .inr ⟨stored, index, hindex, e, he, hrule⟩⟩⟩

end Kernel

end ArrayPlan
