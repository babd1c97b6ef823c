import Formula.Decimal.Ratio
import Formula.Decimal.Scientific

/-!
Texts of a chosen precision: so many places behind the point, or so many significant digits. Both round the exact value
of the double.
-/

namespace Formula.Decimal

def fixedText (places : Nat) (x : Float) : String :=
  (Binary.ofFloat x).text fun m q => pointed ((Ratio.scaled m 2 q).shift places).round places

/-- A positive value rounded to `count` digits; a carry into one digit more moves the exponent. -/
def significant (count : Nat) (r : Ratio) : Scientific :=
  let exponent := r.decade + 1 - count
  let n := (r.shift (-exponent)).round
  if n = Nat.pow 10 count then ⟨Nat.pow 10 (count - 1), exponent + 1⟩ else ⟨n, exponent⟩

def significantText (count : Nat) (x : Float) : String :=
  (Binary.ofFloat x).text fun m q =>
    (if m = 0 then ⟨0, 1 - count⟩ else significant count (.scaled m 2 q)).withExponent count

end Formula.Decimal
