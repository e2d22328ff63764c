import ArrayPlan.Proofs.Preconditions
import Mathlib.Algebra.Order.Field.Rat
import Mathlib.Tactic.NormNum

/-!
Literals in integer arrays. Whether a double is accepted is decided exactly: it is when the number that it stands for is
an integer. What is stored is that integer as a signed word. A double can stand for much larger integers, and then the
nearest bound of the words is stored in its place; the element type, which may be half as wide, has no part in this.
-/

namespace ArrayPlan

theorem Word.saturate_eq_self_iff {z : Int} : saturate z = z ↔ least ≤ z ∧ z ≤ greatest := by
  have hbounds : least ≤ greatest := by decide
  rw [saturate]
  omega

namespace Double

/-- The number that a double stands for, if it is finite. -/
def value? : Double → Option ℚ
  | finite negative m q => some (signedBy negative m * 2 ^ q)
  | _ => none

theorem signedBy_mul (negative : Bool) (m n : Nat) : signedBy negative (m * n) = signedBy negative m * n := by
  cases negative
  · exact Int.natCast_mul m n
  · simp [signedBy]

theorem exists_signedBy_iff {negative : Bool} {m n : Nat} : (∃ z : Int, signedBy negative m = z * n) ↔ n ∣ m := by
  constructor
  · rintro ⟨z, hz⟩
    have hdvd : (n : Int) ∣ signedBy negative m := ⟨z, hz.trans (Int.mul_comm ..)⟩
    cases negative with
    | false => exact Int.natCast_dvd_natCast.1 hdvd
    | true => exact Int.natCast_dvd_natCast.1 (Int.dvd_neg.1 hdvd)
  · rintro ⟨k, rfl⟩
    exact ⟨signedBy negative k, by rw [Nat.mul_comm, signedBy_mul]⟩

theorem two_zpow (q : Int) : (2 : ℚ) ^ q = 2 ^ q.toNat / 2 ^ (-q).toNat := by
  rw [← zpow_natCast, ← zpow_natCast, ← zpow_sub₀ two_ne_zero, Int.toNat_sub_toNat_neg]

theorem value?_eq_intCast_iff {negative : Bool} {m : Nat} {q z : Int} :
    (finite negative m q).value? = some (z : ℚ) ↔
      signedBy negative (m <<< q.toNat) = z * (2 ^ (-q).toNat : Nat) := by
  have hpow : (2 : ℚ) ^ (-q).toNat ≠ 0 := pow_ne_zero _ two_ne_zero
  rw [value?, Option.some.injEq, two_zpow, ← mul_div_assoc, div_eq_iff hpow, Nat.shiftLeft_eq, signedBy_mul]
  exact_mod_cast Iff.rfl

theorem isWhole_iff {d : Double} : d.isWhole = true ↔ ∃ z : Int, d.value? = some (z : ℚ) := by
  cases d with
  | notANumber | infinite => simp [isWhole, value?]
  | finite negative m q =>
    simp only [value?_eq_intCast_iff, exists_signedBy_iff]
    by_cases hq : 0 ≤ q
    · have hright : (-q).toNat = 0 := by omega
      simp [isWhole, hq, hright]
    · have hleft : q.toNat = 0 := by omega
      simp [isWhole, hq, hleft, Nat.one_shiftLeft, Nat.dvd_iff_mod_eq_zero]

theorem truncate_of_value? {d : Double} {z : Int} (h : d.value? = some (z : ℚ)) : d.truncate = Word.saturate z := by
  cases d with
  | notANumber | infinite => cases h
  | finite negative m q =>
    rw [value?_eq_intCast_iff] at h
    obtain ⟨k, hk⟩ := exists_signedBy_iff.1 ⟨z, h⟩
    rw [hk, Nat.mul_comm, signedBy_mul] at h
    have hpow : ((2 ^ (-q).toNat : Nat) : Int) ≠ 0 := Int.natCast_ne_zero.2 (Nat.two_pow_pos _).ne'
    rw [truncate, Nat.shiftRight_eq_div_pow, hk, Nat.mul_div_cancel_left _ (Nat.two_pow_pos _),
      Int.eq_of_mul_eq_mul_right hpow h]

end Double

namespace Literal

def value? : Literal → Option ℚ
  | int n => some n
  | real x => (Double.ofFloat x).value?

theorem value?_of_ofFloat {x : Float} {negative : Bool} {m : Nat} {q z : Int} (hx : Double.ofFloat x = .finite negative m q)
    (hz : Double.signedBy negative (m <<< q.toNat) = z * (2 ^ (-q).toNat : Nat)) : (real x).value? = some (z : ℚ) := by
  rw [value?, hx, Double.value?_eq_intCast_iff, hz]

def InWords : Literal → Prop
  | int n => Word.least ≤ n ∧ n ≤ Word.greatest
  | real _ => True

theorem isWhole_iff {value : Literal} : value.isWhole = true ↔ ∃ z : Int, value.value? = some (z : ℚ) := by
  cases value with
  | int n => exact ⟨fun _ => ⟨n, rfl⟩, fun _ => rfl⟩
  | real x => exact Double.isWhole_iff

variable {value : Literal} {elementType : ElementType}

theorem fits_iff (hinteger : elementType.isInteger = true) :
    value.Fits elementType ↔ ∃ z : Int, value.value? = some (z : ℚ) := by
  rw [← isWhole_iff]
  exact ⟨fun hfits => hfits hinteger, fun hwhole _ => hwhole⟩

theorem cast_of_value? (hinteger : elementType.isInteger = true) (hwords : value.InWords) {z : Int}
    (hz : value.value? = some (z : ℚ)) : value.cast elementType = .ok (.int (Word.saturate z)) := by
  cases value with
  | int n =>
    obtain rfl : n = z := Int.cast_inj.1 (Option.some.inj hz)
    rw [cast, if_pos hinteger, Word.saturate_eq_self_iff.2 hwords]
  | real x => rw [cast, if_pos hinteger, if_pos (isWhole_iff.2 ⟨z, hz⟩), Double.truncate_of_value? hz]

theorem exists_of_cast (hinteger : elementType.isInteger = true) (hwords : value.InWords) {v : Literal}
    (hcast : value.cast elementType = .ok v) : ∃ z : Int, value.value? = some (z : ℚ) ∧ v = .int (Word.saturate z) := by
  obtain ⟨hfits, -⟩ | ⟨e, -, herror⟩ := value.cast_decides elementType
  · obtain ⟨z, hz⟩ := (fits_iff hinteger).1 hfits
    rw [cast_of_value? hinteger hwords hz] at hcast
    exact ⟨z, hz, (Except.ok.inj hcast).symm⟩
  · rw [herror] at hcast
    cases hcast

theorem cast_of_not_integer (hinteger : elementType.isInteger = true) (hnone : ∀ z : Int, value.value? ≠ some (z : ℚ)) :
    ∃ e, e.kind = .type ∧ value.cast elementType = .error e := by
  obtain ⟨hfits, -⟩ | ⟨e, ⟨-, x, -, rfl⟩, herror⟩ := value.cast_decides elementType
  · obtain ⟨z, hz⟩ := (fits_iff hinteger).1 hfits
    exact absurd hz (hnone z)
  · exact ⟨_, rfl, herror⟩

end Literal

namespace Build

variable {p : Plan}

/-- What a step does with a literal for an integer array, where `ok` is all else that it asks for and `puts` says that an
integer is put into the plan. -/
structure TakesIntegers (step : Build Handle) (p : Plan) (value : Literal) (ok : Prop)
    (puts : Int → Handle → Plan → Prop) : Prop where
  /-- An accepted literal stands for an integer, which is stored unchanged if it is a signed word, and only then. -/
  stored : ∀ h p', step.runOn p = (.ok h, p') → ∃ z : Int, value.value? = some (z : ℚ) ∧
    puts (Word.saturate z) h p' ∧ (Word.saturate z = z ↔ Word.least ≤ z ∧ z ≤ Word.greatest)
  accepted : ok → p.finalized = false → (∃ z : Int, value.value? = some (z : ℚ)) → ∃ h p', step.runOn p = (.ok h, p')
  refused : ok → (∀ z : Int, value.value? ≠ some (z : ℚ)) → ∃ e, e.kind = .type ∧ step.runOn p = (.error e, p)

theorem TakesIntegers.exists_puts {step : Build Handle} {value : Literal} {ok : Prop} {puts : Int → Handle → Plan → Prop}
    (ht : step.TakesIntegers p value ok puts) (hok : ok) (hopen : p.finalized = false) {z : Int}
    (hz : value.value? = some (z : ℚ)) : ∃ h p', step.runOn p = (.ok h, p') ∧ puts (Word.saturate z) h p' := by
  obtain ⟨h, p', hrun⟩ := ht.accepted hok hopen ⟨z, hz⟩
  obtain ⟨z', hz', hputs, -⟩ := ht.stored h p' hrun
  obtain rfl : z' = z := Int.cast_inj.1 (Option.some.inj (hz'.symm.trans hz))
  exact ⟨h, p', hrun, hputs⟩

theorem runOn_error_after {α β : Type} {step : Build β} {next : β → Build α} {e : PlanError}
    (h : Passes step p fun b p' => (next b).runOn p' = (.error e, p)) : (step >>= next).runOn p = (.error e, p) := by
  obtain ⟨b, p', hstep, hnext⟩ := h
  exact (runOn_bind hstep).trans hnext

theorem runOn_ofExcept_error {α β : Type} {x : Except PlanError β} {next : β → Build α} {e : PlanError}
    (hx : x = .error e) : (ofExcept x >>= next).runOn p = (.error e, p) := by
  rw [hx, runOn_bind_eq]
  rfl

variable {value : Literal} {elementType : ElementType}

theorem runOn_full_error {extents : List Extent} (hvalid : ValidAxes extents) {e : PlanError}
    (hcast : value.cast elementType = .error e) : (Build.full extents value elementType).runOn p = (.error e, p) := by
  obtain ⟨shape, hshape⟩ := validAxes_iff.1 hvalid
  exact runOn_error_after (Passes.shapeOf hshape (runOn_ofExcept_error hcast))

theorem runOn_write_error {a : Handle} (ha : p.Live a) {index : List (Index Handle)} (hcount : index.length = a.rank)
    (hentries : ∀ e ∈ index.zip a.shape.extents, p.Writable e.1 e.2) {e : PlanError}
    (hcast : value.cast a.elementType = .error e) : (Build.write a index (.literal value)).runOn p = (.error e, p) := by
  refine runOn_error_after (Passes.requireOwn ha.own (runOn_error_after ?_))
  unfold Build.requireIndexCount
  rw [if_pos hcount]
  refine Passes.pure (runOn_error_after ((Passes.writeAxes 0 hcount hentries).mono ?_))
  rintro axes _ ⟨rfl, -⟩
  rw [runOn_bind_eq]
  unfold Build.writeValue
  rw [runOn_ofExcept_error hcast]

end Build

namespace Plan

/-- A rule was registered whose body is the integer, and nothing was queued. -/
def FillsInteger (p : Plan) (z : Int) (h : Handle) (p' : Plan) : Prop :=
  ∃ vars, p'.rules.rules = p.rules.rules ++ [⟨h.rule, vars, .int z⟩] ∧ p'.pending = p.pending

def StoresInteger (p : Plan) (a : Handle) (index : List (Index Handle)) (z : Int) (p' : Plan) : Prop :=
  ∃ array copies vars, p'.pending = p.pending ++ (copies ++
    [⟨.load array (p.targetArgs (writtenAxes index a.shape.extents) vars), .int z, vars⟩]).map fun s => (p.rules.size, s)

variable {p : Plan} {value : Literal} {elementType : ElementType}

theorem full_takesIntegers (hp : p.WellFormed) (hinteger : elementType.isInteger = true) (hwords : value.InWords)
    (extents : List Extent) :
    (Build.full extents value elementType).TakesIntegers p value (ValidAxes extents) p.FillsInteger where
  stored h p' hrun := by
    obtain ⟨shape, v, vars, -, hcast, -, hdef⟩ :=
      (Build.Outcome.full hp extents value elementType).of_runOn_ok hrun
    obtain ⟨z, hz, rfl⟩ := Literal.exists_of_cast hinteger hwords hcast
    refine ⟨z, hz, ⟨vars, ?_, ?_⟩, Word.saturate_eq_self_iff⟩
    · rw [hdef.grown]
      rfl
    · rw [hdef.grown]
      exact List.append_nil _
  accepted hvalid hopen hz :=
    (Build.Decides.full hp hopen extents value elementType).ok_iff.2 ⟨hvalid, (Literal.fits_iff hinteger).2 hz⟩
  refused hvalid hnone := by
    obtain ⟨e, hkind, hcast⟩ := Literal.cast_of_not_integer hinteger hnone
    exact ⟨e, hkind, Build.runOn_full_error hvalid hcast⟩

theorem Writes.storesInteger {a h : Handle} {p' : Plan} {index : List (Index Handle)}
    (hw : p.Writes a index (.literal value) h p') :
    ∃ v, value.cast a.elementType = .ok v ∧ ∀ z, v = .int z → p.StoresInteger a index z p' := by
  cases hw with
  | again array axes v vars hrequest hbacked hlen hfits hgrown hhandle =>
    obtain ⟨-, -, -, rfl, hvalue⟩ := hrequest
    cases hvalue with
    | literal hcast =>
      refine ⟨_, hcast, ?_⟩
      rintro z rfl
      exact ⟨array, [], vars, by rw [hgrown]; rfl⟩
  | first array axes v copyVars vars params hrequest hbacked hcopy hlen hparams hfits hgrown hhandle =>
    obtain ⟨-, -, -, rfl, hvalue⟩ := hrequest
    cases hvalue with
    | literal hcast =>
      refine ⟨_, hcast, ?_⟩
      rintro z rfl
      exact ⟨array, [p.copyOf a array copyVars], vars, by rw [hgrown]; rfl⟩

theorem write_takesIntegers (hp : p.WellFormed) {a : Handle} (ha : p.Live a) (hinteger : a.elementType.isInteger = true)
    (hwords : value.InWords) (index : List (Index Handle))
    (hgathers : ∀ positions, .gather positions ∈ index → positions.plan = p.id → p.Live positions) :
    (Build.write a index (.literal value)).TakesIntegers p value
      (index.length = a.rank ∧ ∀ e ∈ index.zip a.shape.extents, e.1.Addressable p e.2)
      fun z _ p' => p.StoresInteger a index z p' where
  stored h p' hrun := by
    have hwrites := (Build.Outcome.write hp (fun _ => ha) index (.literal value) hgathers nofun).of_runOn_ok hrun
    obtain ⟨v, hcast, hstores⟩ := hwrites.storesInteger
    obtain ⟨z, hz, rfl⟩ := Literal.exists_of_cast hinteger hwords hcast
    exact ⟨z, hz, hstores _ rfl, Word.saturate_eq_self_iff⟩
  accepted hok hopen hz :=
    (Build.Decides.write hp hopen ha index (.literal value) hgathers nofun).ok_iff.2
      ⟨hok.1, hok.2, (Literal.fits_iff hinteger).2 hz⟩
  refused hok hnone := by
    obtain ⟨e, hkind, hcast⟩ := Literal.cast_of_not_integer hinteger hnone
    refine ⟨e, hkind, Build.runOn_write_error ha hok.1 (fun entry hentry => ?_) hcast⟩
    exact (hok.2 entry hentry).writable fun positions hpositions =>
      hgathers positions (hpositions ▸ (List.of_mem_zip hentry).1)

/-- A fill of an integer array or a write into one accepts exactly the literals that stand for integers, and what it stores
is the integer, or the nearest signed word if it is none. For any other literal it is refused, and the plan stays as it
is. -/
theorem literal_stored {handles : List Handle} (hp : p.Reachable handles) (hwords : value.InWords) :
    (∀ elementType : ElementType, elementType.isInteger = true → ∀ extents,
      (Build.full extents value elementType).TakesIntegers p value (ValidAxes extents) p.FillsInteger) ∧
    (∀ a ∈ handles, a.elementType.isInteger = true → ∀ index,
      (∀ positions, .gather positions ∈ index → positions.plan = p.id → positions ∈ handles) →
      (Build.write a index (.literal value)).TakesIntegers p value
        (index.length = a.rank ∧ ∀ e ∈ index.zip a.shape.extents, e.1.Addressable p e.2)
        fun z _ p' => p.StoresInteger a index z p') := by
  refine ⟨fun elementType hinteger => full_takesIntegers hp.wellFormed hinteger hwords, ?_⟩
  intro a ha hinteger index hgathers
  exact write_takesIntegers hp.wellFormed (hp.live ha) hinteger hwords index
    fun positions hpositions hown => hp.live (hgathers positions hpositions hown)

def ranged : Progress :=
  (Progress.start (.empty 0 .default)).run [.range (.fixed 3)]

def rangedHandle : Handle :=
  ⟨0, "subst0", ⟨[.fixed 3], by simp, by simp [Extent.fault?]⟩, .int64, .rowMajor⟩

theorem literal_stored_ranged :
    (∃ h p', (Build.full [.fixed 2] (.real 2) .int32).runOn ranged.plan = (.ok h, p') ∧ ranged.plan.FillsInteger 2 h p') ∧
    (∃ h p', (Build.write rangedHandle [.at 1] (.literal (.real 2))).runOn ranged.plan = (.ok h, p') ∧
      ranged.plan.StoresInteger rangedHandle [.at 1] 2 p') ∧
    ∃ e, e.kind = .type ∧
      (Build.write rangedHandle [.at 1] (.literal (.real 2.5))).runOn ranged.plan = (.error e, ranged.plan) := by
  have hreach : ranged.plan.Reachable ranged.handles := Progress.run_reachable 0 .default _
  have hmem : rangedHandle ∈ ranged.handles := by decide +kernel
  have hbits : Double.ofFloat 2 = .finite false 4503599627370496 (-51) := by decide +kernel
  have htwo : (Literal.real 2).value? = some ((2 : Int) : ℚ) := Literal.value?_of_ofFloat hbits (by decide +kernel)
  have hhalf : ∀ z : Int, (Literal.real 2.5).value? ≠ some (z : ℚ) := by
    have hbroken : (Literal.real 2.5).isWhole = false := by decide +kernel
    intro z hz
    rw [Literal.isWhole_iff.2 ⟨z, hz⟩] at hbroken
    cases hbroken
  have hvalid : ValidAxes [.fixed 2] := ⟨by simp, by simp [Extent.fault?]⟩
  have hindex : [(Index.at 1 : Index Handle)].length = rangedHandle.rank ∧
      ∀ e ∈ [(Index.at 1 : Index Handle)].zip rangedHandle.shape.extents, e.1.Addressable ranged.plan e.2 := by
    refine ⟨rfl, fun e he => ?_⟩
    rw [List.mem_singleton.1 he]
    exact (by decide : 1 < 3)
  have hopen : ranged.plan.finalized = false := by decide +kernel
  have hwords : (Literal.real 2).InWords := trivial
  have hwords' : (Literal.real 2.5).InWords := trivial
  obtain ⟨hfull, hwrite⟩ := literal_stored hreach hwords
  obtain ⟨-, hwrite'⟩ := literal_stored hreach hwords'
  exact ⟨(hfull .int32 rfl [.fixed 2]).exists_puts hvalid hopen htwo,
    (hwrite rangedHandle hmem rfl [.at 1] (by simp)).exists_puts hindex hopen htwo,
    (hwrite' rangedHandle hmem rfl [.at 1] (by simp)).refused hindex hhalf⟩

/-- Ten to the nineteenth is filled in as the greatest signed word, and an array of half words takes an integer that it
cannot hold. -/
theorem full_of_large_literals :
    (Literal.real 1e19).value? = some ((10000000000000000000 : Int) : ℚ) ∧
    (∃ h p', (Build.full [.fixed 2] (.real 1e19) .int64).runOn ranged.plan = (.ok h, p') ∧
      ranged.plan.FillsInteger 9223372036854775807 h p') ∧
    ∃ h p', (Build.full [.fixed 2] (.int 2147483648) .int32).runOn ranged.plan = (.ok h, p') ∧
      ranged.plan.FillsInteger 2147483648 h p' := by
  have hreach : ranged.plan.Reachable ranged.handles := Progress.run_reachable 0 .default _
  have hopen : ranged.plan.finalized = false := by decide +kernel
  have hvalid : ValidAxes [.fixed 2] := ⟨by simp, by simp [Extent.fault?]⟩
  have hbits : Double.ofFloat 1e19 = .finite false 4882812500000000 11 := by decide +kernel
  have hlarge : (Literal.real 1e19).value? = some ((10000000000000000000 : Int) : ℚ) :=
    Literal.value?_of_ofFloat hbits (by decide +kernel)
  have hwords : (Literal.real 1e19).InWords := trivial
  have hwords' : (Literal.int 2147483648).InWords := ⟨by decide, by decide⟩
  have hdouble := full_takesIntegers hreach.wellFormed (show ElementType.int64.isInteger = true from rfl) hwords [.fixed 2]
  have hnarrow := full_takesIntegers hreach.wellFormed (show ElementType.int32.isInteger = true from rfl) hwords' [.fixed 2]
  exact ⟨hlarge, hdouble.exists_puts hvalid hopen hlarge, hnarrow.exists_puts hvalid hopen rfl⟩

end Plan

end ArrayPlan
