import ArrayPlan.Word

/-!
Doubles as exact numbers. A finite double is a sign, a natural mantissa and a power of two, read off its
bits. Conversions to integers are computed on this form, so they are exact before they saturate.
-/

namespace ArrayPlan

/-- What a double stands for: `finite s m q` is `m` times the `q`-th power of two, negated when `s` holds. -/
inductive Double where
  | notANumber
  | infinite (negative : Bool)
  | finite (negative : Bool) (mantissa : Nat) (exponent : Int)
deriving DecidableEq, Repr

namespace Double

def leadingBit : Nat :=
  1 <<< 52

def leastExponent : Int :=
  -1074

def ofBits (bits : Nat) : Double :=
  let negative := bits >>> 63 == 1
  let exponent : Nat := (bits >>> 52) % 2048
  let fraction : Nat := bits % leadingBit
  if exponent = 2047 then
    if fraction = 0 then infinite negative else notANumber
  else if exponent = 0 then finite negative fraction leastExponent
  else finite negative (leadingBit + fraction) (leastExponent + exponent - 1)

def ofFloat (x : Float) : Double :=
  ofBits x.toBits.toNat

def isWhole : Double → Bool
  | finite _ m q => decide (0 ≤ q) || m % (1 <<< (-q).toNat) == 0
  | _ => false

def signedBy (negative : Bool) (n : Nat) : Int :=
  if negative then -(n : Int) else n

/-- The integer part, cut toward zero; what is not finite saturates, and no number gives zero. -/
def truncate : Double → Int
  | notANumber => 0
  | infinite negative => if negative then Word.least else Word.greatest
  | finite negative m q => Word.saturate (signedBy negative ((m <<< q.toNat) >>> (-q).toNat))

def nearest : Double → Int
  | notANumber => 0
  | infinite negative => if negative then Word.least else Word.greatest
  | finite negative m q =>
    let magnitude := if q < 0 then (m >>> ((-q).toNat - 1) + 1) >>> 1 else m <<< q.toNat
    Word.saturate (signedBy negative magnitude)

def remainder : Double → Double → Double
  | finite s m q, finite _ n r =>
    if n = 0 then notANumber
    else
      let e := min q r
      finite s ((m <<< (q - e).toNat) % (n <<< (r - e).toNat)) e
  | finite s m q, infinite _ => finite s m q
  | _, _ => notANumber

/-- The double of a decoded number whose mantissa fits fifty-three bits. -/
def toFloat : Double → Float
  | notANumber => 0.0 / 0.0
  | infinite negative => if negative then -(1.0 / 0.0) else 1.0 / 0.0
  | finite negative m q =>
    let magnitude := (Float.ofNat m).scaleB q
    if negative then -magnitude else magnitude

end Double

/-- Equality of doubles as numbers, where all that is no number counts as one value. -/
def sameNumber (x y : Float) : Bool :=
  x == y || (x.isNaN && y.isNaN)

end ArrayPlan
