import ArrayPlan.Decimal.Double
import ArrayPlan.Decimal.Shortest

/-!
The text of a double. The digits are the shortest ones; a style says where positional notation ends and
whether a whole number keeps a fractional digit.
-/

namespace ArrayPlan.Decimal

structure Style where
  /-- The powers of ten of the leading digit that are written positionally; `none` stands for all. -/
  positional : Option (Int × Int)
  pointZero : Bool
deriving Repr

def zeros (n : Nat) : String :=
  String.ofList (List.replicate n '0')

def positionalText (pointZero : Bool) (digits : List Char) (exponent : Int) : String :=
  let whole := (digits.length + exponent).toNat
  if 0 ≤ exponent then
    String.ofList digits ++ zeros exponent.toNat ++ (if pointZero then ".0" else "")
  else if whole = 0 then
    "0." ++ zeros (-(digits.length + exponent)).toNat ++ String.ofList digits
  else String.ofList (digits.take whole) ++ "." ++ String.ofList (digits.drop whole)

def scientificText (digits : List Char) (leading : Int) : String :=
  let fraction := digits.drop 1
  String.ofList (digits.take 1) ++ (if fraction.isEmpty then "" else "." ++ String.ofList fraction)
    ++ "e" ++ toString leading

def Numeral.text (d : Numeral) (style : Style) : String :=
  let digits := Nat.toDigits 10 d.digits
  let leading := d.exponent + digits.length - 1
  let isPositional := match style.positional with
    | none => true
    | some (least, most) => decide (least ≤ leading) && decide (leading ≤ most)
  if isPositional then positionalText style.pointZero digits d.exponent
  else scientificText digits leading

def text (style : Style) (x : Float) : String :=
  match Double.ofFloat x with
  | .notANumber => "NaN"
  | .infinite negative => if negative then "-inf" else "inf"
  | .finite negative m q =>
    let magnitude :=
      if m = 0 then (if style.pointZero then "0.0" else "0")
      else
        let narrow := m == Double.leadingBit && decide (Double.leastExponent < q)
        (shortest ⟨m, q, narrow⟩).text style
    if negative then "-" ++ magnitude else magnitude

/-- Real constants of expressions and stored values: positional from `1e-4` to below `1e16`, and always
with a fractional digit there. -/
def constantStyle : Style :=
  ⟨some (-4, 15), true⟩

def messageStyle : Style :=
  ⟨none, false⟩

end ArrayPlan.Decimal
