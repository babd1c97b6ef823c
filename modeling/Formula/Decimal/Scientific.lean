import Formula.Decimal.Binary

/-!
The layout of decimal texts: positional, or with one digit before the point and an exponent. Infinity and not-a-number are
words, and only the first has a sign.
-/

namespace Formula.Decimal

/-- `digits · 10 ^ exponent` -/
structure Scientific where
  digits : Nat
  exponent : Int
  deriving DecidableEq, Repr

/-- The digits of `n` with a point before the last `places` of them and at least one digit before the point. -/
def pointed (n places : Nat) : List Char :=
  let digits := Nat.toDigits 10 n
  let padded := List.replicate (places + 1 - digits.length) '0' ++ digits
  let whole := padded.take (padded.length - places)
  if places = 0 then whole else whole ++ '.' :: padded.drop (padded.length - places)

def dropTrailingZeros (cs : List Char) : List Char :=
  (cs.reverse.dropWhile (· == '0')).reverse

def signed (negative : Bool) (text : List Char) : List Char :=
  if negative then '-' :: text else text

/-- Without an exponent and without zeros at the end of a fraction. -/
def Scientific.positional (s : Scientific) : List Char :=
  if 0 ≤ s.exponent then Nat.toDigits 10 s.digits ++ List.replicate s.exponent.toNat '0'
  else
    let text := pointed s.digits (-s.exponent).toNat
    let whole := text.takeWhile (· != '.')
    match dropTrailingZeros (text.drop (whole.length + 1)) with
    | [] => whole
    | fraction => whole ++ '.' :: fraction

/-- Written with `count` digits, as many as `s` has; the exponent has a sign only below zero and no padding. -/
def Scientific.withExponent (s : Scientific) (count : Nat) : List Char :=
  let exponent := s.exponent + (count - 1 : Nat)
  pointed s.digits (count - 1) ++ 'e' :: signed (exponent < 0) (Nat.toDigits 10 exponent.natAbs)

def Binary.text (b : Binary) (finite : Nat → Int → List Char) : String :=
  String.ofList <| match b.magnitude with
    | .nan => ['N', 'a', 'N']
    | .infinite => signed b.negative ['i', 'n', 'f']
    | .finite m q => signed b.negative (finite m q)

example : String.ofList (Scientific.positional ⟨150, -2⟩) = "1.5" := by decide

example : String.ofList (Scientific.positional ⟨1, 3⟩) = "1000" := by decide

example : String.ofList (Scientific.withExponent ⟨1500, -4⟩ 4) = "1.500e-1" := by decide

end Formula.Decimal
