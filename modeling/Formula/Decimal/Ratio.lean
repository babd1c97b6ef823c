/-!
Exact quotients of natural numbers, for the rounding of decimal texts. Rounding to nearest sends a half to the even
neighbour.
-/

namespace Formula.Decimal

/-- Not reduced; the denominator is positive throughout. -/
structure Ratio where
  num : Nat
  den : Nat
  deriving DecidableEq, Repr

namespace Ratio

/-- `mantissa · base ^ exponent` -/
def scaled (mantissa base : Nat) (exponent : Int) : Ratio :=
  if 0 ≤ exponent then ⟨mantissa * base.pow exponent.toNat, 1⟩ else ⟨mantissa, base.pow (-exponent).toNat⟩

/-- `r · 10 ^ places` -/
def shift (r : Ratio) (places : Int) : Ratio :=
  if 0 ≤ places then ⟨r.num * Nat.pow 10 places.toNat, r.den⟩ else ⟨r.num, r.den * Nat.pow 10 (-places).toNat⟩

def floor (r : Ratio) : Nat := r.num / r.den

/-- Compares the part above the floor with one half. -/
def compareHalf (r : Ratio) : Ordering := compare (2 * (r.num % r.den)) r.den

def round (r : Ratio) : Nat :=
  match r.compareHalf with
  | .lt => r.floor
  | .gt => r.floor + 1
  | .eq => if r.floor % 2 = 0 then r.floor else r.floor + 1

def cmp (r s : Ratio) : Ordering := compare (r.num * s.den) (s.num * r.den)

end Ratio

def digitCount (n : Nat) : Nat := (Nat.toDigits 10 n).length

/-- The `d` with `10 ^ d ≤ r < 10 ^ (d + 1)`, for `r` positive. -/
def Ratio.decade (r : Ratio) : Int :=
  if r.den ≤ r.num then digitCount r.floor - 1
  -- below one it is the least `k` with `1 ≤ r · 10 ^ k`, negated
  else -digitCount ((r.den - 1) / r.num)

end Formula.Decimal
