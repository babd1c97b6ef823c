/-!
What a double stands for: a sign, and a natural number times a power of two unless it is infinite or not a number.
-/

namespace Formula.Decimal

inductive Magnitude where
  | nan
  | infinite
  | finite (mantissa : Nat) (exponent : Int)
  deriving DecidableEq, Repr

structure Binary where
  negative : Bool
  magnitude : Magnitude
  deriving DecidableEq, Repr

def Binary.ofFloat (x : Float) : Binary :=
  let bits := x.toBits.toNat
  let exponent := bits / Nat.pow 2 52 % Nat.pow 2 11
  let fraction := bits % Nat.pow 2 52
  { negative := bits / Nat.pow 2 63 == 1
    magnitude :=
      if exponent = 2047 then if fraction = 0 then .infinite else .nan
      else if exponent = 0 then .finite fraction (-1074)
      else .finite (Nat.pow 2 52 + fraction) (Int.ofNat exponent - 1075) }

end Formula.Decimal
