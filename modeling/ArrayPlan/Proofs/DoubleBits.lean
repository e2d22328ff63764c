import ArrayPlan.Decimal.Double
import Mathlib

/-!
The bits of doubles. Patterns of bits that stand for a number or an infinity are told apart by what they stand for. Many
patterns stand for no number, but only one of them is a double, so a double is known by what it stands for. The mantissa
of a number has at most fifty-three bits, and exactly that many unless the exponent is the least one.
-/

namespace ArrayPlan

namespace Double

/-- The one way to write a number with a mantissa of at most fifty-three bits: the exponent is as small as it can be. -/
structure Canonical (m : Nat) (q : Int) : Prop where
  lt : m < 2 * leadingBit
  least_le : leastExponent ≤ q
  reduced : q = leastExponent ∨ leadingBit ≤ m

theorem Canonical.exponent_of_zero {q : Int} (h : Canonical 0 q) : q = leastExponent :=
  h.reduced.resolve_right (by decide)

def ofFields (negative : Bool) (exponent fraction : Nat) : Double :=
  if exponent = 2047 then
    if fraction = 0 then infinite negative else notANumber
  else if exponent = 0 then finite negative fraction leastExponent
  else finite negative (leadingBit + fraction) (leastExponent + exponent - 1)

theorem ofBits_eq (bits : Nat) :
    ofBits bits = ofFields (bits >>> 63 == 1) ((bits >>> 52) % 2048) (bits % leadingBit) :=
  rfl

section Fields

variable {s s' : Bool} {e e' f f' : Nat}

theorem ofFields_canonical (hf : f < leadingBit) {m : Nat} {q : Int} (h : ofFields s e f = finite s' m q) :
    Canonical m q := by
  unfold ofFields at h
  split_ifs at h with hspecial hinfinite hsmall
  · obtain ⟨-, rfl, rfl⟩ := Double.finite.inj h
    exact ⟨by omega, le_rfl, .inl rfl⟩
  · obtain ⟨-, rfl, rfl⟩ := Double.finite.inj h
    exact ⟨by omega, by omega, .inr (Nat.le_add_right _ _)⟩

theorem ofFields_eq_notANumber_iff : ofFields s e f = notANumber ↔ e = 2047 ∧ f ≠ 0 := by
  unfold ofFields
  split_ifs with hspecial hinfinite hsmall <;> simp [*]

theorem ofFields_inj (hf : f < leadingBit) (hf' : f' < leadingBit) (h : ofFields s e f = ofFields s' e' f')
    (hnumber : ofFields s e f ≠ notANumber) : s = s' ∧ e = e' ∧ f = f' := by
  have hnumber' : ofFields s' e' f' ≠ notANumber := h ▸ hnumber
  rw [Ne, ofFields_eq_notANumber_iff] at hnumber hnumber'
  unfold ofFields at h
  split_ifs at h <;> grind

end Fields

section Bits

variable {bits bits' : Nat}

theorem leadingBit_eq : leadingBit = 2 ^ 52 :=
  Nat.one_shiftLeft 52

theorem mod_leadingBit_lt (bits : Nat) : bits % leadingBit < leadingBit :=
  Nat.mod_lt _ (by decide)

theorem eq_of_fields_eq (hbits : bits < 2 ^ 64) (hbits' : bits' < 2 ^ 64)
    (hsign : (bits >>> 63 == 1) = (bits' >>> 63 == 1)) (hexponent : (bits >>> 52) % 2048 = (bits' >>> 52) % 2048)
    (hfraction : bits % leadingBit = bits' % leadingBit) : bits = bits' := by
  rw [beq_eq_beq] at hsign
  simp only [Nat.shiftRight_eq_div_pow] at hsign hexponent
  rw [leadingBit_eq] at hfraction
  omega

theorem ofBits_inj (hbits : bits < 2 ^ 64) (hbits' : bits' < 2 ^ 64) (h : ofBits bits = ofBits bits')
    (hnumber : ofBits bits ≠ notANumber) : bits = bits' := by
  obtain ⟨hsign, hexponent, hfraction⟩ := ofFields_inj (mod_leadingBit_lt bits) (mod_leadingBit_lt bits') h hnumber
  exact eq_of_fields_eq hbits hbits' hsign hexponent hfraction

end Bits

section NoNumber

open Float.Model UnpackedFloat

/-- Of all patterns that stand for no number, the doubles have only one. -/
theorem ofFloat_eq_notANumber_iff {x : Float} : ofFloat x = notANumber ↔ x = Float.nan := by
  constructor
  · intro h
    obtain ⟨hset, hnonzero⟩ := ofFields_eq_notANumber_iff.1 ((ofBits_eq _).symm.trans h)
    have hexponent : @unpackExponent .binary64 x.toBits.toBitVec = -1#_ := by
      rw [unpackExponent_def]
      exact BitVec.eq_of_toNat_eq ((BitVec.extractLsb'_toNat ..).trans hset)
    have hfraction : @unpackMantissa .binary64 x.toBits.toBitVec ≠ 0#_ := by
      rw [unpackMantissa_def]
      rw [leadingBit_eq] at hnonzero
      exact fun hzero => hnonzero ((BitVec.extractLsb'_toNat ..).symm.trans (congrArg BitVec.toNat hzero))
    exact Float.toBits_inj.1 (UInt64.toBitVec_inj.1 (x.toModel.valid.eq_packedNaN hexponent hfraction))
  · rintro rfl
    rfl

end NoNumber

theorem ofFloat_injective : Function.Injective ofFloat := by
  intro x y h
  by_cases hnumber : ofFloat x = notANumber
  · rw [ofFloat_eq_notANumber_iff.1 hnumber, ofFloat_eq_notANumber_iff.1 (h.symm.trans hnumber)]
  · exact Float.toBits_inj.1 (UInt64.toNat_inj.1 (ofBits_inj x.toBits.toNat_lt y.toBits.toNat_lt h hnumber))

theorem ofFloat_canonical {x : Float} {negative : Bool} {m : Nat} {q : Int} (h : ofFloat x = finite negative m q) :
    Canonical m q :=
  ofFields_canonical (mod_leadingBit_lt _) h

end Double

theorem sameNumber_self (x : Float) : sameNumber x x = true := by
  by_cases hx : x = Float.nan
  · simp [sameNumber, hx]
  · simp [sameNumber, hx]

end ArrayPlan
