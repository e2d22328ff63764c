/-!
Sixty-four-bit words. Extents and positions are naturals. An integer constant in an expression holds
the signed reading of the word, so a word from the upper half of the range reads as a negative number.
-/

namespace ArrayPlan.Word

def modulus : Nat :=
  18446744073709551616

def least : Int :=
  -9223372036854775808

def greatest : Int :=
  9223372036854775807

/-- The signed reading of a word. -/
def signed (n : Nat) : Int :=
  (n : Int).bmod modulus

def unsigned (v : Int) : Nat :=
  (v % modulus).toNat

def saturate (v : Int) : Int :=
  max least (min v greatest)

end ArrayPlan.Word
