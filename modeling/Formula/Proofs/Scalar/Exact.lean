import Mathlib
import Formula.Scalar

/-!
Exact arithmetic. A number type is exact if the rationals lie in it as finite numbers and no operation on them is rounded;
whatever else it holds is left open. The rationals themselves, with two infinities and not-a-number added, are such a type.
-/

namespace Formula

namespace Scalar

/-- The rationals lie in `α` by `number`, and sums, products and quotients of them are not rounded. -/
structure ExactField {α : Type} [Scalar α] (number : ℚ → α) : Prop where
  injective : Function.Injective number
  ofScientific : ∀ m s e, (OfScientific.ofScientific m s e : α) = number (OfScientific.ofScientific m s e)
  add : ∀ p q, number p + number q = number (p + q)
  sub : ∀ p q, number p - number q = number (p - q)
  mul : ∀ p q, number p * number q = number (p * q)
  div : ∀ p q, q ≠ 0 → number p / number q = number (p / q)

/-- The rationals are finite numbers of `α`, and compared as rationals too. -/
structure Exact {α : Type} [Scalar α] (number : ℚ → α) : Prop extends ExactField number where
  neg : ∀ q, -number q = number (-q)
  abs : ∀ q, Scalar.abs (number q) = number |q|
  beq : ∀ p q, number p == number q ↔ p = q
  lt : ∀ p q, number p < number q ↔ p < q
  le : ∀ p q, number p ≤ number q ↔ p ≤ q
  isFinite : ∀ q, Scalar.isFinite (number q)
  isNaN : ∀ q, Scalar.isNaN (number q) = false

/-- Beside the rationals there are only infinite numbers and those that are not a number. -/
structure Complete {α : Type} [Scalar α] (number : ℚ → α) : Prop extends Exact number where
  exists_number : ∀ v : α, Scalar.isFinite v → ∃ q, v = number q
  isNaN_nan : Scalar.isNaN (Scalar.nan : α)

/-- Numbers are rounded up to whole ones and counted without an error, up to the largest count. -/
structure Counting {α : Type} [Scalar α] (number : ℚ → α) : Prop extends Exact number where
  ceil : ∀ q, Scalar.ceil (number q) = number ⌈q⌉
  count : ∀ q, Scalar.count (number q) = min ⌊q⌋.toNat (2 ^ 64 - 1)

namespace ExactField

variable {α : Type} [Scalar α] {number : ℚ → α} (hx : ExactField number)
include hx

theorem zero : (0.0 : α) = number 0 := by
  rw [hx.ofScientific]
  norm_num

theorem half : (0.5 : α) = number (1 / 2) := by
  rw [hx.ofScientific]
  norm_num

theorem one : (1.0 : α) = number 1 := by
  rw [hx.ofScientific]
  norm_num

theorem two : (2.0 : α) = number 2 := by
  rw [hx.ofScientific]
  norm_num

theorem ofNat (n : Nat) : (Scalar.ofNat n : α) = number n := by
  have hn : (OfScientific.ofScientific n false 0 : ℚ) = n := by
    change Rat.ofScientific n false 0 = n
    rw [Rat.ofScientific_false_def, pow_zero, mul_one]
  rw [Scalar.ofNat, hx.ofScientific, hn]

end ExactField

end Scalar

/-- The rationals and what division by zero adds to them. -/
inductive Extended where
  | nan
  | infinity (negative : Bool)
  | number (q : ℚ)
  deriving DecidableEq

namespace Extended

def neg : Extended → Extended
  | nan => nan
  | infinity s => infinity !s
  | number q => number (-q)

def add : Extended → Extended → Extended
  | nan, _ | _, nan => nan
  | infinity s, infinity t => if s = t then infinity s else nan
  | infinity s, number _ | number _, infinity s => infinity s
  | number p, number q => number (p + q)

def mul : Extended → Extended → Extended
  | nan, _ | _, nan => nan
  | infinity s, infinity t => infinity (s ^^ t)
  | infinity s, number q | number q, infinity s => if q = 0 then nan else infinity (s ^^ q < 0)
  | number p, number q => number (p * q)

def div : Extended → Extended → Extended
  | nan, _ | _, nan | infinity _, infinity _ => nan
  | infinity s, number q => infinity (s ^^ q < 0)
  | number _, infinity _ => number 0
  | number p, number q => if q ≠ 0 then number (p / q) else if p = 0 then nan else infinity (p < 0)

def abs : Extended → Extended
  | nan => nan
  | infinity _ => infinity false
  | number q => number |q|

def equal : Extended → Extended → Bool
  | nan, _ => false
  | x, y => x = y

def less : Extended → Extended → Bool
  | nan, _ | _, nan | infinity false, _ | _, infinity true => false
  | infinity true, _ | _, infinity false => true
  | number p, number q => p < q

def ceil : Extended → Extended
  | number q => number ⌈q⌉
  | x => x

def count : Extended → Nat
  | nan | infinity true => 0
  | infinity false => 2 ^ 64 - 1
  | number q => min ⌊q⌋.toNat (2 ^ 64 - 1)

def text : Extended → String
  | nan => "NaN"
  | infinity s => if s then "-inf" else "inf"
  | number q => toString q

/-- Functions whose values are irrational have none here. -/
instance : Scalar Extended where
  add := add
  sub x y := add x (neg y)
  mul := mul
  div := div
  neg := neg
  beq := equal
  lt x y := less x y
  le x y := less x y || equal x y
  ofScientific m s e := number (OfScientific.ofScientific m s e)
  decLt _ _ := inferInstanceAs (Decidable (_ = true))
  decLe _ _ := inferInstanceAs (Decidable (_ = true))
  pow _ _ := nan
  abs := abs
  ceil := ceil
  ln _ := nan
  lg _ := nan
  sin _ := nan
  cos _ := nan
  tan _ := nan
  arcsin _ := nan
  arccos _ := nan
  arctan _ := nan
  euler := nan
  pi := nan
  nan := nan
  isNaN x := x = nan
  isFinite x := x ≠ nan ∧ ∀ s, x ≠ infinity s
  isNegative x := less x (number 0)
  count := count
  text := text

theorem exact : Scalar.Exact number where
  injective _ _ := number.inj
  ofScientific _ _ _ := rfl
  add _ _ := rfl
  sub p q := congrArg number (sub_eq_add_neg p q).symm
  mul _ _ := rfl
  div p q hq := if_pos hq
  neg _ := rfl
  abs _ := rfl
  beq p q := decide_eq_true_iff.trans (by rw [number.injEq])
  lt p q := decide_eq_true_iff
  le p q := by
    change (decide (p < q) || decide (number p = number q)) ↔ p ≤ q
    rw [Bool.or_eq_true, decide_eq_true_iff, decide_eq_true_iff, number.injEq, le_iff_lt_or_eq]
  isFinite _ := decide_eq_true ⟨nofun, nofun⟩
  isNaN _ := rfl

theorem complete : Scalar.Complete number where
  toExact := exact
  exists_number v hv := by
    cases v with
    | nan => cases hv
    | infinity s => exact absurd rfl ((of_decide_eq_true hv).2 s)
    | number q => exact ⟨q, rfl⟩
  isNaN_nan := rfl

theorem counting : Scalar.Counting number where
  toExact := exact
  ceil _ := rfl
  count _ := rfl

end Extended

end Formula
