import ArrayPlan.Expr.Walk
import ArrayPlan.Proofs.Membership

/-!
Free variables. A part of an expression is addressed by the way down to it, and the walk over an expression comes to its
parts in the lexicographic order of these addresses. A variable is free where no sum on the way down binds it, whatever is
bound beside the way or below. So the free variables are those with such an address, each once, in the order of the first
ones. A search that keeps a stack of bound names and the list of names found comes to the same result.
-/

namespace ArrayPlan

section Lists

variable {β : Type}

theorem filter_eraseDups [BEq β] [LawfulBEq β] (keep : β → Bool) (l : List β) :
    (l.filter keep).eraseDups = l.eraseDups.filter keep := by
  induction hn : l.length using Nat.strongRecOn generalizing l with
  | ind n ih =>
    cases l with
    | nil => rfl
    | cons a l =>
      have hlen : (l.filter fun b => !b == a).length < n := by
        rw [← hn]
        exact Nat.lt_succ_of_le (List.length_filter_le _ _)
      rw [List.eraseDups_cons]
      by_cases ha : keep a = true
      · rw [List.filter_cons_of_pos ha, List.filter_cons_of_pos ha, List.eraseDups_cons, ← ih _ hlen _ rfl,
          List.filter_filter, List.filter_filter]
        simp only [Bool.and_comm]
      · have hkeep : l.filter keep = (l.filter fun b => !b == a).filter keep := by
          rw [List.filter_filter]
          refine List.filter_congr fun b _ => ?_
          by_cases hb : b = a <;> simp_all
        rw [List.filter_cons_of_neg ha, List.filter_cons_of_neg ha, hkeep, ih _ hlen _ rfl]

/-- The items are what stands at the addresses, in the order of the addresses. -/
def LaidOut (items : List β) (stands : List Nat → β → Prop) : Prop :=
  ∃ l : List (List Nat × β), l.map Prod.snd = items ∧ (l.Pairwise fun a b => a.1 < b.1) ∧
    ∀ address x, (address, x) ∈ l ↔ stands address x

variable {items items' : List β} {stands stands' : List Nat → β → Prop}

theorem LaidOut.congr (h : LaidOut items stands) (hsame : ∀ address x, stands address x ↔ stands' address x) :
    LaidOut items stands' := by
  obtain ⟨l, hitems, hsorted, hmem⟩ := h
  exact ⟨l, hitems, hsorted, fun address x => (hmem address x).trans (hsame address x)⟩

theorem laidOut_nil : LaidOut ([] : List β) fun _ _ => False :=
  ⟨[], rfl, .nil, by simp⟩

theorem laidOut_singleton (x : β) : LaidOut [x] fun address y => address = [] ∧ y = x :=
  ⟨[([], x)], rfl, List.pairwise_singleton _ _, by simp⟩

theorem LaidOut.append (h : LaidOut items stands) (h' : LaidOut items' stands')
    (hbefore : ∀ address x other y, stands address x → stands' other y → address < other) :
    LaidOut (items ++ items') fun address x => stands address x ∨ stands' address x := by
  obtain ⟨l, rfl, hsorted, hmem⟩ := h
  obtain ⟨l', rfl, hsorted', hmem'⟩ := h'
  refine ⟨l ++ l', List.map_append, List.pairwise_append.2 ⟨hsorted, hsorted', fun a ha b hb => ?_⟩, fun address x => ?_⟩
  · exact hbefore a.1 a.2 b.1 b.2 ((hmem _ _).1 ha) ((hmem' _ _).1 hb)
  · rw [List.mem_append, hmem, hmem']

theorem LaidOut.move (h : LaidOut items stands) (f : List Nat → List Nat)
    (hmono : ∀ address x other y, stands address x → stands other y → address < other → f address < f other) :
    LaidOut items fun address x => ∃ old, f old = address ∧ stands old x := by
  obtain ⟨l, rfl, hsorted, hmem⟩ := h
  refine ⟨l.map (Prod.map f id), ?_, ?_, fun address x => ?_⟩
  · rw [List.map_map]
    rfl
  · refine List.pairwise_map.2 (hsorted.imp_of_mem fun {a b} ha hb hlt => ?_)
    exact hmono a.1 a.2 b.1 b.2 ((hmem _ _).1 ha) ((hmem _ _).1 hb) hlt
  · rw [List.mem_map]
    constructor
    · rintro ⟨a, ha, heq⟩
      obtain ⟨rfl, rfl⟩ := Prod.mk.inj heq
      exact ⟨a.1, rfl, (hmem _ _).1 ha⟩
    · rintro ⟨old, rfl, hstands⟩
      exact ⟨(old, x), (hmem _ _).2 hstands, rfl⟩

theorem laidOut_flatMap {γ : Type} {l : List γ} {items : γ → List β} {stands : γ → List Nat → β → Prop}
    (h : ∀ e ∈ l, LaidOut (items e) (stands e)) : LaidOut (l.flatMap items) fun address x =>
      ∃ k below e, address = k :: below ∧ l[k]? = some e ∧ stands e below x := by
  induction l with
  | nil => exact laidOut_nil.congr (by simp)
  | cons e l ih =>
    obtain ⟨hhead, htail⟩ := List.forall_mem_cons.1 h
    have hfirst := hhead.move (0 :: ·) fun _ _ _ _ _ _ hlt => List.cons_lt_cons_self.2 hlt
    -- The elements behind the first one move up by one.
    have hrest := (ih htail).move (List.modifyHead (· + 1)) <| by
      rintro _ _ _ _ ⟨k, below, _, rfl, _⟩ ⟨k', below', _, rfl, _⟩ hlt
      rw [List.modifyHead_cons, List.modifyHead_cons, List.cons_lt_cons_iff]
      exact (List.cons_lt_cons_iff.1 hlt).imp Nat.succ_lt_succ (And.imp_left (congrArg (· + 1)))
    refine (hfirst.append hrest ?_).congr fun address x => ?_
    · rintro _ _ _ _ ⟨below, rfl, _⟩ ⟨_, rfl, k, below', _, rfl, _⟩
      exact List.cons_lt_cons_iff.2 (.inl (Nat.succ_pos k))
    · constructor
      · rintro (⟨below, rfl, hstands⟩ | ⟨_, rfl, k, below, part, rfl, hpart, hstands⟩)
        · exact ⟨0, below, e, rfl, rfl, hstands⟩
        · exact ⟨k + 1, below, part, rfl, hpart, hstands⟩
      · rintro ⟨k, below, part, rfl, hpart, hstands⟩
        cases k with
        | zero =>
          obtain rfl : e = part := Option.some.inj hpart
          exact .inl ⟨below, rfl, hstands⟩
        | succ k => exact .inr ⟨k :: below, rfl, k, below, part, rfl, hpart, hstands⟩

theorem LaidOut.pairwise_eraseDups [BEq β] [LawfulBEq β] (h : LaidOut items stands) : items.eraseDups.Pairwise fun x y =>
    ∃ address, stands address x ∧ ∀ other, stands other y → address < other := by
  obtain ⟨l, rfl, hsorted, hmem⟩ := h
  simp only [← hmem]
  clear hmem
  induction hn : l.length using Nat.strongRecOn generalizing l with
  | ind n ih =>
    cases l with
    | nil => exact .nil
    | cons item l =>
      obtain ⟨hfirst, hsorted⟩ := List.pairwise_cons.1 hsorted
      have hothers : (l.map Prod.snd).filter (fun x => !x == item.2) = (l.filter fun a => !a.2 == item.2).map Prod.snd :=
        List.filter_map
      have hlen : (l.filter fun a => !a.2 == item.2).length < n := by
        rw [← hn]
        exact Nat.lt_succ_of_le (List.length_filter_le _ _)
      have hstays : ∀ {address : List Nat} {x : β}, x ≠ item.2 →
          ((address, x) ∈ item :: l ↔ (address, x) ∈ l.filter fun a => !a.2 == item.2) := by
        intro address x hx
        rw [List.mem_cons, List.mem_filter]
        exact ⟨fun h => h.elim (fun heq => absurd (congrArg Prod.snd heq) hx) fun h => ⟨h, by simpa using hx⟩,
          fun h => .inr h.1⟩
      have hne : ∀ x ∈ ((l.filter fun a => !a.2 == item.2).map Prod.snd).eraseDups, x ≠ item.2 := by
        intro x hx
        obtain ⟨a, ha, rfl⟩ := List.mem_map.1 (List.mem_eraseDups.1 hx)
        simpa using (List.mem_filter.1 ha).2
      rw [List.map_cons, List.eraseDups_cons, hothers]
      refine List.pairwise_cons.2 ⟨fun y hy => ⟨item.1, List.mem_cons_self, fun other hother => ?_⟩, ?_⟩
      · exact hfirst (other, y) (List.mem_filter.1 ((hstays (hne y hy)).1 hother)).1
      · refine (ih _ hlen _ (hsorted.filter _) rfl).imp_of_mem ?_
        rintro x y hx hy ⟨address, haddress, hbefore⟩
        exact ⟨address, (hstays (hne x hx)).2 haddress, fun other hother => hbefore other ((hstays (hne y hy)).1 hother)⟩

end Lists

namespace Expr

def parts : Expr → List Expr
  | call _ args => args
  | load _ index => index
  | arith _ lhs rhs => [lhs, rhs]
  | compare _ lhs rhs => [lhs, rhs]
  | sum _ body => [body]
  | _ => []

def binders : Expr → List String
  | sum vars _ => vars
  | _ => []

/-- The part that is reached by going down to the given parts, one after the other. -/
def at? : Expr → List Nat → Option Expr
  | e, [] => some e
  | e, k :: below => e.parts[k]?.bind fun part => part.at? below

/-- The variable stands at the address, and nothing on the way down binds it. -/
def FreeAt (e : Expr) (address : List Nat) (name : String) : Prop :=
  e.at? address = some (.var name) ∧
    ∀ above, above <+: address → ∀ around, e.at? above = some around → name ∉ around.binders

@[elab_as_elim]
theorem parts_induction {motive : Expr → Prop} (step : ∀ e : Expr, (∀ part ∈ e.parts, motive part) → motive e)
    (e : Expr) : motive e := by
  refine step e fun part hpart => parts_induction step part
termination_by sizeOf e
decreasing_by
  cases e with
  | int | real | var => cases hpart
  | call _ args | load _ index =>
    have hlt := List.sizeOf_lt_of_mem hpart
    simp only [parts, call.sizeOf_spec, load.sizeOf_spec] at hlt ⊢
    omega
  | arith _ lhs rhs | compare _ lhs rhs =>
    simp only [parts, List.mem_cons, List.not_mem_nil, or_false] at hpart
    obtain rfl | rfl := hpart <;> simp only [arith.sizeOf_spec, compare.sizeOf_spec] <;> omega
  | sum _ body =>
    obtain rfl := List.mem_singleton.1 hpart
    simp only [sum.sizeOf_spec]
    omega

theorem subterms_eq (e : Expr) : e.subterms = e :: e.parts.flatMap subterms := by
  have hall : ∀ es : List Expr, subtermsAll es = es.flatMap subterms := by
    intro es
    induction es with
    | nil => rfl
    | cons e es ih => rw [subtermsAll, ih, List.flatMap_cons]
  cases e <;> simp [subterms, parts, hall]

theorem freeOccurrences_eq {e : Expr} (hvar : ∀ name, e ≠ .var name) (bound : List String) :
    e.freeOccurrences bound = e.parts.flatMap (freeOccurrences (bound ++ e.binders)) := by
  have hall : ∀ (bound : List String) (es : List Expr),
      freeOccurrencesAll bound es = es.flatMap (freeOccurrences bound) := by
    intro bound es
    induction es with
    | nil => rfl
    | cons e es ih => rw [freeOccurrencesAll, ih, List.flatMap_cons]
  cases e with
  | var name => exact absurd rfl (hvar name)
  | _ => simp [freeOccurrences, parts, binders, hall]

theorem freeAt_nil {e : Expr} {name : String} : e.FreeAt [] name ↔ e = .var name := by
  refine ⟨fun h => Option.some.inj h.1, ?_⟩
  rintro rfl
  refine ⟨rfl, fun above habove around haround => ?_⟩
  obtain rfl := List.prefix_nil.1 habove
  obtain rfl := Option.some.inj haround
  exact List.not_mem_nil

theorem freeAt_cons {e : Expr} {k : Nat} {below : List Nat} {name : String} : e.FreeAt (k :: below) name ↔
    name ∉ e.binders ∧ ∃ part, e.parts[k]? = some part ∧ part.FreeAt below name := by
  constructor
  · rintro ⟨hstands, hway⟩
    obtain ⟨part, hpart, hbelow⟩ := Option.bind_eq_some_iff.1 hstands
    refine ⟨hway [] List.nil_prefix e rfl, part, hpart, hbelow, fun above habove around haround => ?_⟩
    refine hway (k :: above) (List.cons_prefix_cons.2 ⟨rfl, habove⟩) around ?_
    rw [at?, hpart, Option.bind_some, haround]
  · rintro ⟨hroot, part, hpart, hstands, hway⟩
    refine ⟨by rw [at?, hpart, Option.bind_some, hstands], fun above habove around haround => ?_⟩
    obtain rfl | ⟨above, rfl, hbelow⟩ := List.prefix_cons_iff.1 habove
    · obtain rfl := Option.some.inj haround
      exact hroot
    · rw [at?, hpart, Option.bind_some] at haround
      exact hway above hbelow around haround

theorem laidOut_subterms (e : Expr) : LaidOut e.subterms fun address part => e.at? address = some part := by
  induction e using parts_induction with
  | step e ih =>
    rw [subterms_eq]
    refine ((laidOut_singleton e).append (laidOut_flatMap ih) ?_).congr fun address part => ?_
    · rintro _ _ _ _ ⟨rfl, _⟩ ⟨k, below, _, rfl, _⟩
      exact List.nil_lt_cons k below
    · cases address with
      | nil => simp [at?, eq_comm]
      | cons k below => simp [at?, Option.bind_eq_some_iff]

theorem freeAt_var {name other : String} {address : List Nat} :
    (var name).FreeAt address other ↔ address = [] ∧ other = name := by
  cases address with
  | nil => rw [freeAt_nil, var.injEq, eq_self, true_and, eq_comm]
  | cons k below => simp [freeAt_cons, parts]

theorem laidOut_freeOccurrences (e : Expr) (bound : List String) :
    LaidOut (e.freeOccurrences bound) fun address name => e.FreeAt address name ∧ name ∉ bound := by
  induction e using parts_induction generalizing bound with
  | step e ih =>
    by_cases hvar : ∃ name, e = .var name
    · obtain ⟨name, rfl⟩ := hvar
      simp only [freeAt_var]
      rw [freeOccurrences]
      split
      · rename_i hbound
        refine laidOut_nil.congr fun address other => ⟨False.elim, ?_⟩
        rintro ⟨⟨rfl, rfl⟩, hother⟩
        exact hother hbound
      · rename_i hbound
        exact (laidOut_singleton name).congr fun address other => ⟨fun h => ⟨h, h.2 ▸ hbound⟩, And.left⟩
    · have hvar := not_exists.1 hvar
      rw [freeOccurrences_eq hvar]
      refine (laidOut_flatMap fun part hpart => ih part hpart _).congr fun address name => ?_
      cases address with
      | nil => simp [freeAt_nil, hvar name]
      | cons k below =>
        simp only [freeAt_cons, List.cons.injEq, List.mem_append, not_or]
        constructor
        · rintro ⟨_, _, part, ⟨rfl, rfl⟩, hpart, hfree, hbound, hroot⟩
          exact ⟨⟨hroot, part, hpart, hfree⟩, hbound⟩
        · rintro ⟨⟨hroot, part, hpart, hfree⟩, hbound⟩
          exact ⟨k, below, part, ⟨rfl, rfl⟩, hpart, hfree, hbound, hroot⟩

theorem freeOccurrences_append (outer bound : List String) (e : Expr) :
    e.freeOccurrences (outer ++ bound) = (e.freeOccurrences bound).filter (· ∉ outer) := by
  induction e using parts_induction generalizing bound with
  | step e ih =>
    by_cases hvar : ∃ name, e = .var name
    · obtain ⟨name, rfl⟩ := hvar
      by_cases houter : name ∈ outer <;> by_cases hbound : name ∈ bound <;> simp [freeOccurrences, houter, hbound]
    · have hvar := not_exists.1 hvar
      rw [freeOccurrences_eq hvar, freeOccurrences_eq hvar, List.append_assoc, List.filter_flatMap]
      exact List.flatMap_congr fun part hpart => ih part hpart _

/-- What a search for free variables keeps: the names bound around the place it has come to, and the names found. -/
structure Search where
  bound : List String
  found : List String

def Search.see (s : Search) (name : String) : Search :=
  if name ∈ s.bound ∨ name ∈ s.found then s else { s with found := s.found ++ [name] }

mutual

/-- The search over an expression. A sum puts its variables on the stack of bound names, and cuts the stack to its former
depth at the end. -/
def search : Expr → Search → Search
  | int _, s | real _, s => s
  | var name, s => s.see name
  | call _ args, s => searchAll args s
  | load _ index, s => searchAll index s
  | arith _ lhs rhs, s => search rhs (search lhs s)
  | compare _ lhs rhs, s => search rhs (search lhs s)
  | sum vars body, s =>
    let inner := search body { s with bound := s.bound ++ vars }
    { inner with bound := inner.bound.take s.bound.length }

def searchAll : List Expr → Search → Search
  | [], s => s
  | e :: es, s => searchAll es (search e s)

end

mutual

theorem search_eq : ∀ (e : Expr) (bound found : List String), e.search ⟨bound, found⟩ =
    ⟨bound, (e.freeOccurrences bound).foldl (fun l x => if x ∈ l then l else l ++ [x]) found⟩
  | .int _, _, _ => rfl
  | .real _, _, _ => rfl
  | .var name, bound, found => by
    by_cases hbound : name ∈ bound <;> by_cases hfound : name ∈ found <;>
      simp [search, Search.see, freeOccurrences, hbound, hfound]
  | .call _ args, bound, found => searchAll_eq args bound found
  | .load _ index, bound, found => searchAll_eq index bound found
  | .arith _ lhs rhs, bound, found => by
    rw [search, search_eq lhs, search_eq rhs, freeOccurrences, List.foldl_append]
  | .compare _ lhs rhs, bound, found => by
    rw [search, search_eq lhs, search_eq rhs, freeOccurrences, List.foldl_append]
  | .sum vars body, bound, found => by
    rw [search, search_eq body, List.take_left, freeOccurrences]

theorem searchAll_eq : ∀ (es : List Expr) (bound found : List String), searchAll es ⟨bound, found⟩ =
    ⟨bound, (freeOccurrencesAll bound es).foldl (fun l x => if x ∈ l then l else l ++ [x]) found⟩
  | [], _, _ => rfl
  | e :: es, bound, found => by
    rw [searchAll, search_eq e, searchAll_eq es, freeOccurrencesAll, List.foldl_append]

end

theorem search_eq_freeVars (e : Expr) (bound found : List String) : e.search ⟨bound, found⟩ =
    ⟨bound, found ++ e.freeVars.filter fun name => name ∉ bound ∧ name ∉ found⟩ := by
  have hbound : e.freeOccurrences bound = (e.freeOccurrences []).filter (· ∉ bound) := by
    rw [← freeOccurrences_append, List.append_nil]
  rw [search_eq, foldl_appendNew, hbound, List.filter_filter, filter_eraseDups, freeVars]
  congr 3
  funext name
  simp [Bool.and_comm]

/-- The free variables are the names that occur where no sum around them binds them, each once, in the order in which the
walk over the expression first comes to such an occurrence. Searching an expression finds those of them that are neither
bound around it nor found before, and leaves the names bound around it as they are. -/
theorem freeVars_exact (e : Expr) :
    LaidOut e.subterms (fun address part => e.at? address = some part) ∧
    (∀ name, name ∈ e.freeVars ↔ ∃ address, e.FreeAt address name) ∧
    e.freeVars.Nodup ∧
    (e.freeVars.Pairwise fun first second =>
      ∃ address, e.FreeAt address first ∧ ∀ other, e.FreeAt other second → address < other) ∧
    ∀ bound found, e.search ⟨bound, found⟩ =
      ⟨bound, found ++ e.freeVars.filter fun name => name ∉ bound ∧ name ∉ found⟩ := by
  have hlaid : LaidOut (e.freeOccurrences []) e.FreeAt := (e.laidOut_freeOccurrences []).congr (by simp)
  have hpairwise := hlaid.pairwise_eraseDups
  refine ⟨e.laidOut_subterms, fun name => ?_, hpairwise.imp ?_, hpairwise, e.search_eq_freeVars⟩
  · obtain ⟨l, hnames, -, hmem⟩ := hlaid
    rw [freeVars, List.mem_eraseDups, ← hnames, List.mem_map]
    simp [← hmem]
  · rintro name _ ⟨address, hfree, hbefore⟩ rfl
    exact absurd (hbefore address hfree) (List.lt_irrefl address)

/-- The variable `j` is free, then bound, and bound again below; `k` is bound first and free behind the sum. -/
example : (arith .add (var "j") (arith .add (sum ["j", "k"] (call "f" [sum ["j"] (var "j"), var "j", var "i", var "k"]))
    (var "k"))).freeVars = ["j", "i", "k"] := by
  decide +kernel

end Expr

end ArrayPlan
