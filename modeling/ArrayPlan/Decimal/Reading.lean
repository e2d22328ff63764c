/-!
Reading decimals. A number is an optional sign, digits with at most one point, and an optional power of ten;
the value is the nearest double. The words for the infinities and for no number are read in any case.
-/

namespace ArrayPlan.Decimal

def digitValue (digits : List Char) : Nat :=
  digits.foldl (fun n c => 10 * n + (c.toNat - '0'.toNat)) 0

def splitSign : List Char → Bool × List Char
  | '-' :: rest => (true, rest)
  | '+' :: rest => (false, rest)
  | rest => (false, rest)

def readExponent? : List Char → Option Int
  | [] => some 0
  | c :: rest =>
    let (negative, digits) := splitSign rest
    if c.toLower = 'e' && !digits.isEmpty && digits.all Char.isDigit then
      some (if negative then -(digitValue digits : Int) else digitValue digits)
    else none

/-- The double nearest to `mantissa * 10 ^ power`. Powers far outside the range of doubles are cut, which
leaves the value zero or infinite. -/
def scaled (mantissa : Nat) (power : Int) : Float :=
  let top := power + (Nat.toDigits 10 mantissa).length
  if mantissa = 0 || top < -400 then 0.0
  else if 400 < top then 1.0 / 0.0
  else Float.ofScientific mantissa (decide (power < 0)) power.natAbs

def readMagnitude? (cs : List Char) : Option Float :=
  let word := String.ofList (cs.map Char.toLower)
  if word = "inf" || word = "infinity" then some (1.0 / 0.0)
  else if word = "nan" then some (0.0 / 0.0)
  else
    let whole := cs.takeWhile Char.isDigit
    let rest := cs.dropWhile Char.isDigit
    let (fraction, rest) := match rest with
      | '.' :: r => (r.takeWhile Char.isDigit, r.dropWhile Char.isDigit)
      | r => ([], r)
    if whole.isEmpty && fraction.isEmpty then none
    else (readExponent? rest).map fun e => scaled (digitValue (whole ++ fraction)) (e - fraction.length)

def read? (text : String) : Option Float :=
  let (negative, magnitude) := splitSign text.toList
  (readMagnitude? magnitude).map fun x => if negative then -x else x

end ArrayPlan.Decimal
