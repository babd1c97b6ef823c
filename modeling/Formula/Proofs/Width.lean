import Formula.Equation
import Formula.Proofs.Grid

/-!
How fine an equation is scanned. The range is cut into as many parts as it has whole units, rounded up, so no part is wider
than one. That goes for ranges from left to right: a range whose bounds are in reverse order has a negative width, which
counts as no units, and is scanned as a single part however wide it is.
-/

namespace Formula

open Scalar (Counting)

/-- The parts are as wide as a unit at most if the range is not turned round by more than that, and not wider than can be
counted. -/
theorem abs_div_units_le_one_iff (w : ℚ) :
    |w / (max (min ⌈w⌉.toNat (2 ^ 64 - 1)) 1 : Nat)| ≤ 1 ↔ -1 ≤ w ∧ w ≤ 2 ^ 64 - 1 := by
  rcases lt_or_ge 0 w with hw | hw
  · have hceil : 0 < ⌈w⌉ := Int.ceil_pos.2 hw
    have hunits : (⌈w⌉.toNat : ℚ) = ⌈w⌉ := by exact_mod_cast Int.toNat_of_nonneg hceil.le
    have hle : w ≤ ⌈w⌉.toNat := hunits ▸ Int.le_ceil w
    have hn : max (min ⌈w⌉.toNat (2 ^ 64 - 1)) 1 = min ⌈w⌉.toNat (2 ^ 64 - 1) := by omega
    have hpos : (0 : ℚ) < (min ⌈w⌉.toNat (2 ^ 64 - 1) : Nat) := by
      have : 0 < min ⌈w⌉.toNat (2 ^ 64 - 1) := by omega
      exact_mod_cast this
    rw [hn, abs_of_pos (div_pos hw hpos), div_le_one hpos, Nat.cast_min, le_min_iff]
    have hmax : ((2 ^ 64 - 1 : Nat) : ℚ) = 2 ^ 64 - 1 := by norm_num
    rw [hmax]
    exact ⟨fun h => ⟨by linarith, h.2⟩, fun h => ⟨hle, h.2⟩⟩
  · have hceil : ⌈w⌉.toNat = 0 := Int.toNat_eq_zero.2 (Int.ceil_nonpos.2 hw)
    have hmax : w ≤ 2 ^ 64 - 1 := hw.trans (by norm_num)
    rw [hceil, Nat.zero_min, Nat.zero_max, Nat.cast_one, div_one, abs_of_nonpos hw, neg_le]
    exact (and_iff_left hmax).symm

namespace Equation

variable {α : Type} [Scalar α]

/-- Where the range is cut. -/
def cut (lower upper : α) (i : Nat) : α :=
  gridPoint lower ((upper - lower) / Scalar.ofNat (unitParts lower upper)) i

theorem unitParts_pos (lower upper : α) : 0 < unitParts lower upper := by
  rw [unitParts]
  omega

theorem scan_eq_verdicts (e : Equation α) (finder : Finder α) (x lower upper : α) : e.scan finder x lower upper =
    finder.verdicts (e.difference.substitute x).eval (cut lower upper) (unitParts lower upper) := rfl

section Exact

variable {number : ℚ → α} (hx : Counting number)
include hx

theorem unitParts_number (a b : ℚ) :
    unitParts (number a) (number b) = max (min ⌈b - a⌉.toNat (2 ^ 64 - 1)) 1 := by
  rw [unitParts, hx.sub, hx.ceil, hx.count, Int.floor_intCast]

theorem cut_number (a b : ℚ) (i : Nat) :
    cut (number a) (number b) i = number (a + i * ((b - a) / unitParts (number a) (number b))) :=
  Finder.cut_number hx.toExactField ((Finder.standard : Finder α).inParts (unitParts (number a) (number b)))
    (unitParts_pos _ _).ne' a b i

/-- All parts are equally wide. -/
theorem width_number (a b : ℚ) (i : Nat) :
    Scalar.abs (cut (number a) (number b) (i + 1) - cut (number a) (number b) i) =
      number |(b - a) / unitParts (number a) (number b)| := by
  rw [cut_number hx, cut_number hx, hx.sub, hx.abs]
  congr 2
  push_cast
  ring

/-- The parts scanned go from bound to bound, and none of them is wider than one exactly if the range does not go back by
more than one, or on by more than the largest count; a range that goes back is a single part. -/
theorem scanned_by_units (e : Equation α) (finder : Finder α) (x : α) (a b : ℚ) :
    e.scan finder x (number a) (number b) = finder.verdicts (e.difference.substitute x).eval
      (cut (number a) (number b)) (unitParts (number a) (number b)) ∧
    cut (number a) (number b) 0 = number a ∧
    cut (number a) (number b) (unitParts (number a) (number b)) = number b ∧
    ((∀ i < unitParts (number a) (number b),
        Scalar.abs (cut (number a) (number b) (i + 1) - cut (number a) (number b) i) ≤ 1.0) ↔
      a - b ≤ 1 ∧ b - a ≤ 2 ^ 64 - 1) ∧
    (b < a → unitParts (number a) (number b) = 1) := by
  have hparts : (unitParts (number a) (number b) : ℚ) ≠ 0 := Nat.cast_ne_zero.2 (unitParts_pos _ _).ne'
  refine ⟨e.scan_eq_verdicts finder x _ _, ?_, ?_, ?_, fun hlt => ?_⟩
  · rw [cut_number hx, Nat.cast_zero, zero_mul, add_zero]
  · rw [cut_number hx, mul_div_cancel₀ _ hparts, add_sub_cancel]
  · have hone : (∀ i < unitParts (number a) (number b),
        Scalar.abs (cut (number a) (number b) (i + 1) - cut (number a) (number b) i) ≤ 1.0) ↔
        |(b - a) / unitParts (number a) (number b)| ≤ 1 := by
      simp only [width_number hx, hx.one, hx.le]
      exact ⟨fun h => h 0 (unitParts_pos _ _), fun h _ _ => h⟩
    rw [hone, unitParts_number hx, abs_div_units_le_one_iff, neg_le, neg_sub]
  · have hceil : ⌈b - a⌉.toNat = 0 := Int.toNat_eq_zero.2 (Int.ceil_nonpos.2 (sub_nonpos.2 hlt.le))
    rw [unitParts_number hx, hceil, Nat.zero_min, Nat.zero_max]

end Exact

open Extended

/-- `x * x + y * y = 25` -/
def circle : Equation Extended :=
  ⟨[.var .independent, .var .independent, .op .mul, .var .dependent, .var .dependent, .op .mul, .op .add,
    .number (number 25), .op .sub]⟩

/-- From `-5/2` to `10/3` there are six parts, and from `10` to `-10` one. -/
theorem scanned_by_units_circle :
    (∀ i < unitParts (number (-5 / 2)) (number (10 / 3)), Scalar.abs
      (cut (number (-5 / 2)) (number (10 / 3)) (i + 1) - cut (number (-5 / 2)) (number (10 / 3)) i) ≤ 1.0) ∧
    (-10 : ℚ) < 10 ∧ unitParts (number 10) (number (-10)) = 1 := by
  obtain ⟨-, -, -, hwidth, -⟩ :=
    scanned_by_units Extended.counting circle .standard (number 3) (-5 / 2) (10 / 3)
  obtain ⟨-, -, -, -, hback⟩ := scanned_by_units Extended.counting circle .standard (number 3) 10 (-10)
  have hlt : (-10 : ℚ) < 10 := by norm_num
  exact ⟨hwidth.2 (by norm_num), hlt, hback hlt⟩

/-- From `10` to `-10` the only part is twenty wide, and the two points of the circle at `x = 3` are lost that are found from
`-10` to `10`. -/
theorem reversed_range_coarse :
    |(-10 : ℚ) - 10| ≤ 2 ^ 63 ∧ unitParts (number 10) (number (-10)) = 1 ∧
    ¬ Scalar.abs (cut (number 10) (number (-10)) 1 - cut (number 10) (number (-10)) 0) ≤ 1.0 ∧
    circle.valuesAt .standard (number 3) (number (-10)) (number 10) = [number (-4), number 4] ∧
    circle.valuesAt .standard (number 3) (number 10) (number (-10)) = [] :=
  ⟨by norm_num [abs_of_neg], by decide +kernel, by decide +kernel, by decide +kernel, by decide +kernel⟩

end Equation

end Formula
