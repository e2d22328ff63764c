import ArrayPlan.Decimal.Shortest
import ArrayPlan.Proofs.DoubleBits

/-!
Shortest decimals round to the number that they were made for. The reals that round to a number lie between the middles
of the gaps to its neighbours, and a middle belongs to the neighbour whose mantissa is even. Every decimal that can be
chosen lies there, and no real lies there for two numbers, so the decimal shows which number it was made for.
-/

namespace ArrayPlan.Decimal

def Numeral.value (d : Numeral) : ℚ :=
  d.digits * 10 ^ d.exponent

theorem pow_toNat {b : ℚ} (hb : b ≠ 0) (i : Int) : b ^ i.toNat = b ^ i * b ^ (-i).toNat := by
  have hsplit : (i.toNat : Int) = i + (-i).toNat := by omega
  rw [← zpow_natCast, hsplit, zpow_add₀ hb, zpow_natCast]

theorem order_compares (a : Nat) (i : Int) (n : Nat) (j : Int) :
    (order a i n j).Compares ((a : ℚ) * 10 ^ i) (n * 2 ^ j) := by
  have hscale : StrictMono fun v : ℚ => v * (10 ^ (-i).toNat * 2 ^ (-j).toNat) :=
    strictMono_mul_right_of_pos (by positivity)
  have hleft : (((a * tenTo i.toNat) <<< (-j).toNat : Nat) : ℚ) = a * 10 ^ i * (10 ^ (-i).toNat * 2 ^ (-j).toNat) := by
    simp only [tenTo, Nat.shiftLeft_eq, Nat.pow_eq]
    push_cast
    rw [pow_toNat (by norm_num) i]
    ring
  have hright : (((n <<< j.toNat) * tenTo (-i).toNat : Nat) : ℚ) = n * 2 ^ j * (10 ^ (-i).toNat * 2 ^ (-j).toNat) := by
    simp only [tenTo, Nat.shiftLeft_eq, Nat.pow_eq]
    push_cast
    rw [pow_toNat (by norm_num) j]
    ring
  rw [← hscale.compares, ← hleft, ← hright, (@Nat.strictMono_cast ℚ _ _ _ _ _).compares, order, ← cmp_eq_compare]
  exact cmp_compares _ _

namespace Dyadic

variable {x : Dyadic} {v : ℚ}

/-- The middle of the gap below the number, in quarters of its last bit. -/
def lowQuarters (x : Dyadic) : Nat :=
  4 * x.mantissa - if x.narrow then 1 else 2

def highQuarters (x : Dyadic) : Nat :=
  4 * x.mantissa + 2

/-- The reals that round to the number. -/
structure Covers (x : Dyadic) (v : ℚ) : Prop where
  above : x.lowQuarters * 2 ^ (x.exponent - 2) < v ∨ x.mantissa % 2 = 0 ∧ v = x.lowQuarters * 2 ^ (x.exponent - 2)
  below : v < x.highQuarters * 2 ^ (x.exponent - 2) ∨ x.mantissa % 2 = 0 ∧ v = x.highQuarters * 2 ^ (x.exponent - 2)

theorem lowQuarters_lt (hpos : 0 < x.mantissa) : x.lowQuarters < 4 * x.mantissa := by
  unfold lowQuarters
  split <;> omega

theorem lowQuarters_pos (hpos : 0 < x.mantissa) : 0 < x.lowQuarters := by
  unfold lowQuarters
  split <;> omega

theorem Covers.pos (hpos : 0 < x.mantissa) (h : x.Covers v) : 0 < v := by
  have hlow : (0 : ℚ) < x.lowQuarters * 2 ^ (x.exponent - 2) :=
    mul_pos (Nat.cast_pos.2 (lowQuarters_pos hpos)) (by positivity)
  obtain habove | ⟨-, habove⟩ := h.above
  · exact hlow.trans habove
  · exact habove ▸ hlow

theorem admits_iff {d : Numeral} : x.admits d = true ↔ x.Covers d.value := by
  have hlow := order_compares d.digits d.exponent x.lowQuarters (x.exponent - 2)
  have hhigh := order_compares d.digits d.exponent x.highQuarters (x.exponent - 2)
  rw [lowQuarters] at hlow
  rw [highQuarters] at hhigh
  simp only [admits, Bool.and_eq_true, Bool.or_eq_true, beq_iff_eq, hlow.eq_gt, hlow.eq_eq, hhigh.eq_lt, hhigh.eq_eq]
  exact ⟨fun h => ⟨h.1, h.2⟩, fun h => ⟨h.above, h.below⟩⟩

theorem admits_of_onGrid {grid : Int} {d : Numeral} (h : x.onGrid grid = some d) : x.admits d = true := by
  unfold onGrid at h
  dsimp only at h
  split at h
  · split at h <;> cases h <;> assumption
  · cases h; assumption
  · cases h; assumption
  · cases h

theorem exact_value (x : Dyadic) : x.exact.value = x.mantissa * 2 ^ x.exponent := by
  rw [exact, Numeral.value]
  obtain ⟨n, hn | hn⟩ := x.exponent.eq_nat_or_neg
  · simp [hn, Nat.shiftLeft_eq]
  · have hten : (10 : ℚ) ^ n = 5 ^ n * 2 ^ n := by rw [← mul_pow]; norm_num
    have hfive : (5 : ℚ) ^ n ≠ 0 := by positivity
    simp [hn, hten]
    field_simp

theorem value_eq_quarters (x : Dyadic) : (x.mantissa : ℚ) * 2 ^ x.exponent =
    (4 * x.mantissa : Nat) * 2 ^ (x.exponent - 2) := by
  rw [zpow_sub₀ two_ne_zero]
  push_cast
  ring

theorem covers_self (hpos : 0 < x.mantissa) : x.Covers (x.mantissa * 2 ^ x.exponent) := by
  have hhigh : 4 * x.mantissa < x.highQuarters := Nat.lt_add_of_pos_right two_pos
  rw [value_eq_quarters]
  exact ⟨.inl (mul_lt_mul_of_pos_right (Nat.cast_lt.2 (lowQuarters_lt hpos)) (by positivity)),
    .inl (mul_lt_mul_of_pos_right (Nat.cast_lt.2 hhigh) (by positivity))⟩

end Dyadic

theorem strip_value (digits : Nat) (exponent : Int) : (strip digits exponent).value = digits * 10 ^ exponent := by
  fun_induction strip with
  | case1 digits exponent h ih =>
    have hdigits : (digits : ℚ) = (digits / 10 : Nat) * 10 := by
      exact_mod_cast (Nat.div_mul_cancel (Nat.dvd_of_mod_eq_zero h.2)).symm
    rw [ih, hdigits, zpow_add_one₀ (by norm_num)]
    ring
  | case2 => rfl

theorem shortest_covers {x : Dyadic} (hpos : 0 < x.mantissa) : x.Covers (shortest x).value := by
  rw [shortest, strip_value]
  cases hfound : (List.range 17).findSome? fun (n : Nat) => x.onGrid (x.scale - n - 1) with
  | some d =>
    obtain ⟨n, -, hgrid⟩ := List.exists_of_findSome?_eq_some hfound
    exact Dyadic.admits_iff.1 (Dyadic.admits_of_onGrid hgrid)
  | none =>
    have hexact := Dyadic.covers_self hpos
    rw [← x.exact_value] at hexact
    exact hexact

section Neighbours

open Double

def Dyadic.ofDouble (m : Nat) (q : Int) : Dyadic :=
  ⟨m, q, m == leadingBit && decide (leastExponent < q)⟩

variable {m m' : Nat} {q q' : Int}

theorem lowQuarters_ofDouble (m : Nat) (q : Int) :
    (Dyadic.ofDouble m q).lowQuarters = 4 * m - if m = leadingBit ∧ leastExponent < q then 1 else 2 := by
  simp [Dyadic.lowQuarters, Dyadic.ofDouble]

theorem quarters_of_lt (hm : Canonical m q) (hlt : m < m') :
    4 * m + 2 ≤ (Dyadic.ofDouble m' q).lowQuarters ∧
      (4 * m + 2 = (Dyadic.ofDouble m' q).lowQuarters → m % 2 = 0 → m' % 2 ≠ 0) := by
  have hwide : ¬(m' = leadingBit ∧ leastExponent < q) := by
    rintro ⟨rfl, hq⟩
    exact hm.reduced.elim hq.ne' (not_le_of_gt hlt)
  rw [lowQuarters_ofDouble, if_neg hwide]
  omega

theorem quarters_of_exponent_lt (hm : Canonical m q) (hm' : Canonical m' q') (hlt : q < q') {k : Nat} (hk : 0 < k) :
    4 * m + 2 ≤ (Dyadic.ofDouble m' q').lowQuarters * 2 ^ k ∧
      (4 * m + 2 = (Dyadic.ofDouble m' q').lowQuarters * 2 ^ k → m % 2 ≠ 0) := by
  have hleast : leastExponent < q' := hm.least_le.trans_lt hlt
  have hlead : leadingBit ≤ m' := hm'.reduced.resolve_left hleast.ne'
  have hlow : 4 * leadingBit - 1 ≤ (Dyadic.ofDouble m' q').lowQuarters := by
    rw [lowQuarters_ofDouble]
    split <;> omega
  have hpow : (Dyadic.ofDouble m' q').lowQuarters * 2 ≤ (Dyadic.ofDouble m' q').lowQuarters * 2 ^ k :=
    Nat.mul_le_mul_left _ (Nat.le_self_pow hk.ne' 2)
  have hbound := hm.lt
  have hone : 0 < leadingBit := by decide
  omega

/-- The first of two numbers with the same exponent, or the one with the smaller exponent, does not reach beyond where the
other begins, and if they touch then one of the mantissas is odd. -/
theorem highQuarters_le (hm : Canonical m q) (hm' : Canonical m' q') (hbefore : q < q' ∨ q = q' ∧ m < m') :
    4 * m + 2 ≤ (Dyadic.ofDouble m' q').lowQuarters * 2 ^ (q' - q).toNat ∧
      (4 * m + 2 = (Dyadic.ofDouble m' q').lowQuarters * 2 ^ (q' - q).toNat → m % 2 = 0 → m' % 2 ≠ 0) := by
  obtain hlt | ⟨rfl, hlt⟩ := hbefore
  · obtain ⟨hle, hodd⟩ := quarters_of_exponent_lt hm hm' hlt (k := (q' - q).toNat) (by omega)
    exact ⟨hle, fun htouch heven => absurd heven (hodd htouch)⟩
  · simpa using quarters_of_lt hm hlt

theorem quarters_shift (hle : q ≤ q') (n : Nat) :
    (n : ℚ) * 2 ^ (q' - 2) = (n * 2 ^ (q' - q).toNat : Nat) * 2 ^ (q - 2) := by
  have hexponent : q' - 2 = (q' - q).toNat + (q - 2) := by omega
  rw [hexponent, zpow_add₀ two_ne_zero, zpow_natCast]
  push_cast
  ring

theorem not_covers_both (hm : Canonical m q) (hm' : Canonical m' q') (hbefore : q < q' ∨ q = q' ∧ m < m') {v : ℚ}
    (h : (Dyadic.ofDouble m q).Covers v) : ¬(Dyadic.ofDouble m' q').Covers v := by
  intro h'
  obtain ⟨hle, htouch⟩ := highQuarters_le hm hm' hbefore
  have hbit : (0 : ℚ) < 2 ^ (q - 2) := by positivity
  have hshift := quarters_shift (show q ≤ q' by omega) (Dyadic.ofDouble m' q').lowQuarters
  have hends : ((4 * m + 2 : Nat) : ℚ) * 2 ^ (q - 2) ≤ (Dyadic.ofDouble m' q').lowQuarters * 2 ^ (q' - 2) := by
    rw [hshift]
    gcongr
  obtain hbelow | ⟨heven, hbelow⟩ := h.below
  · obtain habove | ⟨-, habove⟩ := h'.above
    · exact (hbelow.trans_le hends).not_gt habove
    · exact (hbelow.trans_le hends).ne habove
  · obtain habove | ⟨heven', habove⟩ := h'.above
    · exact (hbelow.trans_le hends).not_gt habove
    · have hmeet := hbelow.symm.trans (habove.trans hshift)
      exact htouch (Nat.cast_injective (mul_right_cancel₀ hbit.ne' hmeet)) heven heven'

theorem covers_unique (hm : Canonical m q) (hm' : Canonical m' q') {v : ℚ} (h : (Dyadic.ofDouble m q).Covers v)
    (h' : (Dyadic.ofDouble m' q').Covers v) : m = m' ∧ q = q' := by
  obtain hlt | rfl | hgt := lt_trichotomy q q'
  · exact absurd h' (not_covers_both hm hm' (.inl hlt) h)
  · obtain hlt | rfl | hgt := lt_trichotomy m m'
    · exact absurd h' (not_covers_both hm hm' (.inr ⟨rfl, hlt⟩) h)
    · exact ⟨rfl, rfl⟩
    · exact absurd h (not_covers_both hm' hm (.inr ⟨rfl, hgt⟩) h')
  · exact absurd h (not_covers_both hm' hm (.inl hgt) h')

theorem shortest_pos (hpos : 0 < m) : 0 < (shortest (.ofDouble m q)).value :=
  (shortest_covers (x := .ofDouble m q) hpos).pos hpos

theorem shortest_inj (hm : Canonical m q) (hm' : Canonical m' q') (hpos : 0 < m) (hpos' : 0 < m')
    (h : (shortest (.ofDouble m q)).value = (shortest (.ofDouble m' q')).value) : m = m' ∧ q = q' :=
  covers_unique hm hm' (shortest_covers hpos) (h ▸ shortest_covers hpos')

end Neighbours

end ArrayPlan.Decimal
