import ArrayPlan.Proofs.Reshaping

/-!
Strides in words. When the elements of the two shapes of a reshape can be counted in words, each product on the way to
a stride is a word as well: it divides the number of elements. A number that a reshape writes into its rule has to be
read as a signed word besides. It steps over half of the elements at most, or it is the length of an axis that others
stand beside, as the axes of length one, the strides of one and the outermost remainder are left out.
-/

namespace ArrayPlan

namespace Word

def mul? (a b : Nat) : Option Nat :=
  if a * b < modulus then some (a * b) else none

def product? (lengths : List Nat) : Option Nat :=
  lengths.foldlM mul? 1

/-- The products before each length, with the product of all of them computed in the end. -/
def strides? (step : Nat) : List Nat → Option (List Nat)
  | [] => some []
  | n :: lengths => (mul? step n).bind fun next => (strides? next lengths).map (step :: ·)

theorem mul?_eq_some {a b c : Nat} : mul? a b = some c ↔ a * b = c ∧ c < modulus := by
  rw [mul?]
  split
  · rename_i h
    rw [Option.some.injEq]
    exact ⟨fun heq => ⟨heq, heq ▸ h⟩, And.left⟩
  · rename_i h
    refine ⟨nofun, ?_⟩
    rintro ⟨rfl, hlt⟩
    exact absurd hlt h

theorem foldlM_mul?_eq_some {lengths : List Nat} {start total : Nat} (hstart : start < modulus)
    (h : lengths.foldlM mul? start = some total) : total = start * elementCount lengths ∧ total < modulus := by
  induction lengths generalizing start with
  | nil =>
    obtain rfl : start = total := Option.some.inj h
    exact ⟨(Nat.mul_one start).symm, hstart⟩
  | cons n lengths ih =>
    rw [List.foldlM_cons] at h
    obtain ⟨next, hnext, h⟩ := Option.bind_eq_some_iff.1 h
    obtain ⟨rfl, hword⟩ := mul?_eq_some.1 hnext
    obtain ⟨htotal, hlt⟩ := ih hword h
    exact ⟨by rw [htotal, elementCount, Nat.mul_assoc], hlt⟩

theorem product?_eq_some {lengths : List Nat} {total : Nat} (h : product? lengths = some total) :
    total = elementCount lengths ∧ total < modulus := by
  have hproduct := foldlM_mul?_eq_some (by decide) h
  rwa [Nat.one_mul] at hproduct

theorem strides?_eq {lengths : List Nat} (hpos : ∀ n ∈ lengths, 0 < n) {step : Nat}
    (hword : step * elementCount lengths < modulus) : strides? step lengths = some (Layout.columnStrides step lengths) := by
  induction lengths generalizing step with
  | nil => rfl
  | cons n lengths ih =>
    obtain ⟨_, hpos⟩ := List.forall_mem_cons.1 hpos
    rw [elementCount, ← Nat.mul_assoc] at hword
    have hnext : step * n < modulus := Nat.lt_of_le_of_lt (Nat.le_mul_of_pos_right _ (elementCount_pos hpos)) hword
    rw [strides?, mul?_eq_some.2 ⟨rfl, hnext⟩, Option.bind_some, ih hpos hword]
    rfl

theorem lt_of_signed_eq {n : Nat} (hword : n < modulus) (h : signed n = n) : (n : Int) < 9223372036854775808 := by
  rw [modulus] at hword
  rw [signed, modulus, Int.bmod_def] at h
  omega

end Word

theorem elementCount_append (lengths later : List Nat) :
    elementCount (lengths ++ later) = elementCount lengths * elementCount later := by
  induction lengths with
  | nil => exact (Nat.one_mul _).symm
  | cons n lengths ih => rw [List.cons_append, elementCount, elementCount, ih, Nat.mul_assoc]

theorem elementCount_reverse (lengths : List Nat) : elementCount lengths.reverse = elementCount lengths := by
  induction lengths with
  | nil => rfl
  | cons n lengths ih =>
    rw [List.reverse_cons, elementCount_append, ih, elementCount, elementCount, elementCount, Nat.mul_one, Nat.mul_comm]

namespace Layout

theorem columnStrides_append (step : Nat) (lengths : List Nat) (n : Nat) :
    columnStrides step (lengths ++ [n]) = columnStrides step lengths ++ [step * elementCount lengths] := by
  induction lengths generalizing step with
  | nil => rw [List.nil_append, columnStrides, columnStrides, elementCount, Nat.mul_one]; rfl
  | cons k lengths ih => rw [List.cons_append, columnStrides, ih, columnStrides, elementCount, Nat.mul_assoc]; rfl

theorem reverse_columnStrides_reverse (lengths : List Nat) :
    (columnStrides 1 lengths.reverse).reverse = rowStrides lengths := by
  induction lengths with
  | nil => rfl
  | cons n lengths ih =>
    rw [List.reverse_cons, columnStrides_append, List.reverse_append, ih, Nat.one_mul, elementCount_reverse]
    rfl

/-- The strides as they are computed in words: along the axes from the one that varies fastest. -/
def wordStrides? : Layout → List Nat → Option (List Nat)
  | rowMajor, lengths => (Word.strides? 1 lengths.reverse).map List.reverse
  | columnMajor, lengths => Word.strides? 1 lengths

theorem wordStrides?_eq (layout : Layout) {lengths : List Nat} (hpos : ∀ n ∈ lengths, 0 < n)
    (hword : elementCount lengths < Word.modulus) : layout.wordStrides? lengths = some (layout.strides lengths) := by
  cases layout with
  | rowMajor =>
    have hreverse : ∀ n ∈ lengths.reverse, 0 < n := fun n hn => hpos n (List.mem_reverse.1 hn)
    rw [wordStrides?, Word.strides?_eq hreverse (by rwa [Nat.one_mul, elementCount_reverse]), Option.map_some,
      reverse_columnStrides_reverse, strides]
  | columnMajor => exact Word.strides?_eq hpos (by rwa [Nat.one_mul])

theorem mul?_of_mem_strides (layout : Layout) {lengths : List Nat} (hpos : ∀ n ∈ lengths, 0 < n)
    (hword : elementCount lengths < Word.modulus) {axis : Nat × Nat} (haxis : axis ∈ lengths.zip (layout.strides lengths)) :
    Word.mul? axis.2 axis.1 = some (axis.2 * axis.1) := by
  have hle := (layout.le_of_mem_strides hpos haxis).2
  rw [Nat.mul_comm] at hle
  exact Word.mul?_eq_some.2 ⟨rfl, Nat.lt_of_le_of_lt hle hword⟩

theorem range_of_mem_strides (layout : Layout) {lengths : List Nat} (hpos : ∀ n ∈ lengths, 0 < n)
    (hword : elementCount lengths < Word.modulus) {axis : Nat × Nat} (haxis : axis ∈ lengths.zip (layout.strides lengths))
    (hone : axis.1 ≠ 1) :
    (axis.2 ≠ 1 → Word.signed axis.2 = axis.2 ∧ 1 < Word.signed axis.2 ∧ Word.signed axis.2 < 9223372036854775808) ∧
      (axis.2 * axis.1 ≠ elementCount lengths →
        Word.signed axis.1 = axis.1 ∧ 1 < Word.signed axis.1 ∧ Word.signed axis.1 < 9223372036854775808) := by
  obtain ⟨hstride, hlength⟩ := layout.signed_of_mem_strides hpos hword haxis hone
  obtain ⟨hsome, hle⟩ := layout.le_of_mem_strides hpos haxis
  have hpositive : 0 < axis.1 := hpos axis.1 (List.of_mem_zip haxis).1
  refine ⟨fun hunit => ?_, fun houter => ?_⟩
  · have hline : axis.2 ≤ axis.1 * axis.2 := Nat.le_mul_of_pos_left _ hpositive
    rw [hstride]
    exact ⟨rfl, by omega, Word.lt_of_signed_eq (by omega) hstride⟩
  · have hline : axis.1 ≤ axis.1 * axis.2 := Nat.le_mul_of_pos_right _ hsome
    rw [hlength houter]
    exact ⟨rfl, by omega, Word.lt_of_signed_eq (by omega) (hlength houter)⟩

end Layout

namespace Expr

/-- Built from variables, zeros and operations, where each other number stands on the right of an operation that allows
it there. -/
def Operands (allowed : ArithOp → Expr → Int → Prop) : Expr → Prop
  | .arith op lhs (.int z) => allowed op lhs z ∧ Operands allowed lhs
  | .arith _ lhs rhs => Operands allowed lhs ∧ Operands allowed rhs
  | .int z => z = 0
  | .var _ => True
  | _ => False

variable {allowed : ArithOp → Expr → Int → Prop}

theorem operands_arith {op : ArithOp} {lhs rhs : Expr} (hlhs : lhs.Operands allowed) (hrhs : rhs.Operands allowed)
    (hterm : ∀ z, rhs ≠ .int z) : (Expr.arith op lhs rhs).Operands allowed := by
  rw [Operands]
  · exact ⟨hlhs, hrhs⟩
  · exact hterm

theorem operands_linearTerms {vars : List String} {lengths strides : List Nat}
    (hmul : ∀ (k : Nat) (v : String) (n stride : Nat), vars[k]? = some v → (lengths.zip strides)[k]? = some (n, stride) →
      n ≠ 1 → stride ≠ 1 → allowed .mul (.var v) (Word.signed stride)) :
    ∀ term ∈ linearTerms vars lengths strides, term.Operands allowed ∧ ∀ z, term ≠ .int z := by
  induction vars generalizing lengths strides with
  | nil => exact fun _ hterm => absurd hterm List.not_mem_nil
  | cons v vars ih =>
    cases lengths with
    | nil => exact fun _ hterm => absurd hterm List.not_mem_nil
    | cons n lengths =>
      cases strides with
      | nil => exact fun _ hterm => absurd hterm List.not_mem_nil
      | cons stride strides =>
        have hrest := ih fun k => hmul (k + 1)
        rw [linearTerms]
        by_cases hone : n = 1
        · rwa [if_pos hone]
        · rw [if_neg hone]
          by_cases hunit : stride = 1
          · rw [if_pos hunit]
            exact List.forall_mem_cons.2 ⟨⟨trivial, by simp⟩, hrest⟩
          · rw [if_neg hunit]
            exact List.forall_mem_cons.2 ⟨⟨⟨hmul 0 v n stride rfl rfl hone hunit, trivial⟩, by simp⟩, hrest⟩

theorem operands_sum {terms : List Expr} {term : Expr} (hterm : term.Operands allowed)
    (hterms : ∀ t ∈ terms, t.Operands allowed ∧ ∀ z, t ≠ .int z) : (terms.foldl (.arith .add) term).Operands allowed := by
  induction terms generalizing term with
  | nil => exact hterm
  | cons t terms ih =>
    obtain ⟨ht, hterms⟩ := List.forall_mem_cons.1 hterms
    exact ih (operands_arith hterm ht.1 ht.2) hterms

theorem operands_linearIndex {vars : List String} {lengths strides : List Nat}
    (hterms : ∀ t ∈ linearTerms vars lengths strides, t.Operands allowed ∧ ∀ z, t ≠ .int z) :
    (linearIndex vars lengths strides).Operands allowed := by
  rw [linearIndex]
  cases hlist : linearTerms vars lengths strides with
  | nil => exact rfl
  | cons term terms =>
    rw [hlist] at hterms
    obtain ⟨hterm, hterms⟩ := List.forall_mem_cons.1 hterms
    exact operands_sum hterm.1 hterms

theorem operands_axisPosition {line : Expr} {total length stride : Nat} (hline : line.Operands allowed)
    (hstride : length ≠ 1 → stride ≠ 1 → ∀ e, allowed .floorDiv e (Word.signed stride))
    (hlength : length ≠ 1 → stride * length ≠ total → ∀ e, allowed .rem e (Word.signed length)) :
    (axisPosition line total length stride).Operands allowed := by
  rw [axisPosition]
  by_cases hone : length = 1
  · rw [if_pos hone]
    exact rfl
  · rw [if_neg hone]
    have houter : (if stride = 1 then line else .arith .floorDiv line (.int (Word.signed stride))).Operands allowed := by
      by_cases hunit : stride = 1
      · rwa [if_pos hunit]
      · rw [if_neg hunit]
        exact ⟨hstride hone hunit line, hline⟩
    dsimp only
    by_cases hlast : stride * length = total
    · rwa [if_pos hlast]
    · rw [if_neg hlast]
      exact ⟨hlength hone hlast _, houter⟩

end Expr

/-- The stride or the length that a number in an index expression stands for, along one axis of the source: variables
are weighted by their strides in the new shape, and the line is taken apart by those of the source. -/
inductive StandsForAxis (vars : List String) (strides sourceLengths sourceStrides : List Nat) (axis : Nat) :
    ArithOp → Expr → Int → Prop where
  | stride {k n : Nat} {v : String} : vars[k]? = some v → strides[k]? = some n →
      StandsForAxis vars strides sourceLengths sourceStrides axis .mul (.var v) n
  | sourceStride {n : Nat} {line : Expr} : sourceStrides[axis]? = some n →
      StandsForAxis vars strides sourceLengths sourceStrides axis .floorDiv line n
  | sourceLength {n : Nat} {outer : Expr} : sourceLengths[axis]? = some n →
      StandsForAxis vars strides sourceLengths sourceStrides axis .rem outer n

def FitsAxis (vars : List String) (strides sourceLengths sourceStrides : List Nat) (axis : Nat) (op : ArithOp) (lhs : Expr)
    (z : Int) : Prop :=
  StandsForAxis vars strides sourceLengths sourceStrides axis op lhs z ∧ 1 < z ∧ z < 9223372036854775808

theorem operands_indexAtLine {vars : List String} {lengths sourceLengths : List Nat} (layout sourceLayout : Layout)
    (hpos : ∀ n ∈ lengths, 0 < n) (hword : elementCount lengths < Word.modulus) (hpos' : ∀ n ∈ sourceLengths, 0 < n)
    (hword' : elementCount sourceLengths < Word.modulus) {j : Nat} {arg : Expr}
    (harg : (indexAtLine (linearIndex vars lengths (layout.strides lengths)) (elementCount sourceLengths) sourceLengths
      (sourceLayout.strides sourceLengths))[j]? = some arg) :
    arg.Operands (FitsAxis vars (layout.strides lengths) sourceLengths (sourceLayout.strides sourceLengths) j) := by
  rw [indexAtLine, List.getElem?_map] at harg
  obtain ⟨⟨length, stride⟩, haxis, rfl⟩ := Option.map_eq_some_iff.1 harg
  obtain ⟨hlength, hstride⟩ := List.getElem?_zip_eq_some.1 haxis
  have hsource := sourceLayout.range_of_mem_strides hpos' hword' (List.mem_of_getElem? haxis)
  refine Expr.operands_axisPosition (Expr.operands_linearIndex (Expr.operands_linearTerms ?_))
    (fun hone hunit e => ?_) fun hone houter e => ?_
  · intro k v n step hv hzip hone hunit
    obtain ⟨hexact, hrange⟩ := (layout.range_of_mem_strides hpos hword (List.mem_of_getElem? hzip) hone).1 hunit
    exact ⟨hexact ▸ .stride hv (List.getElem?_zip_eq_some.1 hzip).2, hrange⟩
  · obtain ⟨hexact, hrange⟩ := (hsource hone).1 hunit
    exact ⟨hexact ▸ .sourceStride hstride, hrange⟩
  · obtain ⟨hexact, hrange⟩ := (hsource hone).2 houter
    exact ⟨hexact ▸ .sourceLength hlength, hrange⟩

/-- A reshape between shapes whose elements can be counted in words never leaves the words: all products that it computes
are exact, and so are all strides and lengths that it writes into its rule. -/
theorem Plan.reshape_inWords {p : Plan} {handles : List Handle} (hp : p.Reachable handles) (hopen : p.finalized = false)
    {a : Handle} (ha : a ∈ handles) {sourceLengths : List Nat} (hsource : a.shape.lengths? = some sourceLengths)
    {extents : List Extent} {shape : Shape} {lengths : List Nat} (hshape : Shape.ofExtents extents = .ok shape)
    (hlengths : shape.lengths? = some lengths) {total : Nat} (htotal : Word.product? lengths = some total)
    (htotal' : Word.product? sourceLengths = some total) (layout : Layout) :
    layout.wordStrides? lengths = some (layout.strides lengths) ∧
    a.layout.wordStrides? sourceLengths = some (a.layout.strides sourceLengths) ∧
    (∀ axis ∈ sourceLengths.zip (a.layout.strides sourceLengths), Word.mul? axis.2 axis.1 = some (axis.2 * axis.1)) ∧
    ∃ (h : Handle) (p' : Plan) (vars : List String) (args : List Expr),
      (Build.reshape a extents layout).runOn p = (.ok h, p') ∧
      p'.rules.rules = p.rules.rules ++ [⟨h.rule, vars, p.callOf a.rule args⟩] ∧
      vars.Nodup ∧ vars.length = lengths.length ∧ args.length = sourceLengths.length ∧
      ∀ (j : Nat) (arg : Expr), args[j]? = some arg →
        arg.Operands (FitsAxis vars (layout.strides lengths) sourceLengths (a.layout.strides sourceLengths) j) := by
  have hwf := hp.wellFormed
  have hpos := Shape.pos_of_lengths? hlengths
  have hpos' := Shape.pos_of_lengths? hsource
  obtain ⟨rfl, hword⟩ := Word.product?_eq_some htotal
  obtain ⟨hcount, hword'⟩ := Word.product?_eq_some htotal'
  rw [hcount] at hword'
  refine ⟨layout.wordStrides?_eq hpos hword, a.layout.wordStrides?_eq hpos' hword',
    fun axis => a.layout.mul?_of_mem_strides hpos' hword', ?_⟩
  obtain ⟨h, p', hrun, _⟩ := Build.Passes.reshape hwf hopen (hp.live ha) hshape hlengths hsource hcount layout
  obtain ⟨_, shape', lengths', sourceLengths', vars, hextents, hlengths', hsource', _, hvars, hdef⟩ :=
    (Build.Outcome.reshape hwf (fun _ => hp.live ha) extents layout).of_runOn_ok hrun
  obtain rfl : sourceLengths = sourceLengths' := Option.some.inj (hsource.symm.trans hsource')
  obtain rfl : shape' = shape := Shape.eq_of_extents (hextents.trans (Shape.extents_of_ofExtents hshape).symm)
  obtain rfl : lengths = lengths' := Option.some.inj (hlengths.symm.trans hlengths')
  refine ⟨h, p', vars, _, hrun, ?_, (List.nodup_append.1 hdef.draws.nodup).1, hvars, ?_,
    fun j arg => operands_indexAtLine layout a.layout hpos hword hpos' hword'⟩
  · rw [hdef.grown]
    rfl
  · rw [indexAtLine, List.length_map, List.length_zip, Layout.length_strides, Nat.min_self]

namespace Plan

def longSequence : Handle :=
  ⟨0, "subst0", ⟨[.fixed 9223372036854775810], by simp, by simp [Extent.fault?]⟩, .float64, .rowMajor⟩

def longSequenced : Progress :=
  (Progress.start (.empty 0 .default)).run [.input (.extents [.fixed 9223372036854775810]) .float64]

theorem reshape_inWords_long :
    Layout.columnMajor.wordStrides? [1, 4611686018427387905, 2, 1] = some [1, 1, 4611686018427387905, 9223372036854775810] ∧
    ∃ (h : Handle) (p' : Plan) (vars : List String) (args : List Expr),
      (Build.reshape longSequence [.fixed 1, .fixed 4611686018427387905, .fixed 2, .fixed 1] .columnMajor).runOn
        longSequenced.plan = (.ok h, p') ∧
      ∀ (j : Nat) (arg : Expr), args[j]? = some arg → arg.Operands
        (FitsAxis vars [1, 1, 4611686018427387905, 9223372036854775810] [9223372036854775810] [1] j) := by
  have hreach : longSequenced.plan.Reachable longSequenced.handles := Progress.run_reachable 0 .default _
  have hmem : longSequence ∈ longSequenced.handles := by decide +kernel
  obtain ⟨halves, hhalves⟩ := Shape.ofExtents_of_faultless
    (by simp : [Extent.fixed 1, .fixed 4611686018427387905, .fixed 2, .fixed 1] ≠ []) (by simp [Extent.fault?])
  have hlengths : halves.lengths? = some [1, 4611686018427387905, 2, 1] :=
    Shape.lengths?_eq_some.2 (Shape.extents_of_ofExtents hhalves)
  have hsource : longSequence.shape.lengths? = some [9223372036854775810] := by decide
  have htotal : Word.product? [1, 4611686018427387905, 2, 1] = some 9223372036854775810 := by decide +kernel
  have htotal' : Word.product? [9223372036854775810] = some 9223372036854775810 := by decide +kernel
  obtain ⟨hstrides, _, _, h, p', vars, args, hrun, _, _, _, _, hargs⟩ :=
    reshape_inWords hreach (by decide +kernel) hmem hsource hhalves hlengths htotal htotal' .columnMajor
  exact ⟨hstrides, h, p', vars, args, hrun, hargs⟩

end Plan

end ArrayPlan
