/-!
The shortest decimal of a positive number, `m` times the `q`-th power of two. The reals that round to the
number form an interval, closed exactly when `m` is even. Of all decimals with the fewest digits in the
interval the one nearest to the number is taken, and of two equally near ones the larger. All comparisons are
exact, on naturals.
-/

namespace ArrayPlan.Decimal

structure Numeral where
  digits : Nat
  exponent : Int
deriving DecidableEq, Repr

/-- A positive mantissa times a power of two; `narrow` says that the lower neighbour of the number is half as
far away as its upper one. -/
structure Dyadic where
  mantissa : Nat
  exponent : Int
  narrow : Bool
deriving DecidableEq, Repr

def tenTo (k : Nat) : Nat :=
  Nat.pow 10 k

def order (a : Nat) (i : Int) (n : Nat) (j : Int) : Ordering :=
  compare ((a * tenTo i.toNat) <<< (-j).toNat) ((n <<< j.toNat) * tenTo (-i).toNat)

namespace Dyadic

/-- Whether a decimal lies in the interval of reals that round to the number. -/
def admits (x : Dyadic) (d : Numeral) : Bool :=
  let low := 4 * x.mantissa - (if x.narrow then 1 else 2)
  let high := 4 * x.mantissa + 2
  let closed := x.mantissa % 2 == 0
  let fromLow := order d.digits d.exponent low (x.exponent - 2)
  let toHigh := order d.digits d.exponent high (x.exponent - 2)
  (fromLow == .gt || (closed && fromLow == .eq)) && (toHigh == .lt || (closed && toHigh == .eq))

def floorOn (x : Dyadic) (grid : Int) : Nat :=
  (x.mantissa <<< x.exponent.toNat) * tenTo (-grid).toNat / (tenTo grid.toNat <<< (-x.exponent).toNat)

def digitCount (n : Nat) : Nat :=
  (Nat.toDigits 10 n).length

def scale (x : Dyadic) : Int :=
  let whole := (x.mantissa <<< x.exponent.toNat) >>> (-x.exponent).toNat
  if whole = 0 then 1 - (digitCount (((1 <<< (-x.exponent).toNat) - 1) / x.mantissa) : Int)
  else digitCount whole

def onGrid (x : Dyadic) (grid : Int) : Option Numeral :=
  let below := x.floorOn grid
  let lower : Numeral := ⟨below, grid⟩
  let upper : Numeral := ⟨below + 1, grid⟩
  match x.admits lower, x.admits upper with
  | true, true =>
    if order (2 * below + 1) grid (2 * x.mantissa) x.exponent == .gt then some lower else some upper
  | true, false => some lower
  | false, true => some upper
  | false, false => none

def exact (x : Dyadic) : Numeral :=
  ⟨(x.mantissa <<< x.exponent.toNat) * Nat.pow 5 (-x.exponent).toNat, min x.exponent 0⟩

end Dyadic

def strip (digits : Nat) (exponent : Int) : Numeral :=
  if h : digits ≠ 0 ∧ digits % 10 = 0 then strip (digits / 10) (exponent + 1)
  else ⟨digits, exponent⟩
termination_by digits
decreasing_by omega

/-- The shortest decimal that reads back as the number; seventeen digits always suffice for a double. -/
def shortest (x : Dyadic) : Numeral :=
  let top := x.scale
  let found := ((List.range 17).findSome? fun (n : Nat) => x.onGrid (top - n - 1)).getD x.exact
  strip found.digits found.exponent

end ArrayPlan.Decimal
