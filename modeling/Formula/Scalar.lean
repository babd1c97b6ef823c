/-!
The numbers a formula computes with. Nothing past this module fixes a number type: the program runs on the doubles
of `Scalar.Double`, and a law of exact arithmetic is a law of another instance.
-/

namespace Formula

class Scalar (α : Type) extends Add α, Sub α, Mul α, Div α, Neg α, BEq α, LT α, LE α, OfScientific α where
  decLt : DecidableLT α
  decLe : DecidableLE α
  pow : α → α → α
  abs : α → α
  ceil : α → α
  ln : α → α
  lg : α → α
  sin : α → α
  cos : α → α
  tan : α → α
  arcsin : α → α
  arccos : α → α
  arctan : α → α
  euler : α
  pi : α
  nan : α
  isNaN : α → Bool
  isFinite : α → Bool
  /-- Carries a minus sign, which zero may do too. -/
  isNegative : α → Bool
  /-- Drops the fraction and clamps to the 64-bit counts; not-a-number counts 0. -/
  count : α → Nat
  text : α → String

namespace Scalar

variable {α : Type} [Scalar α]

instance : DecidableLT α := decLt

instance : DecidableLE α := decLe

def ofNat (n : Nat) : α := OfScientific.ofScientific n false 0

/-- The number whose decimal digits are those of `digits`, the last `places` of them behind the point. -/
def ofDigits (digits places : Nat) : α := OfScientific.ofScientific digits true places

def isInfinite (x : α) : Bool := !isFinite x && !isNaN x

end Scalar

end Formula
