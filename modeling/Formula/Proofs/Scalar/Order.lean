import Mathlib
import Formula.Scalar.Double

/-!
The order of the doubles. Every double but not-a-number has a rank, and one is at most another exactly if its rank is;
so `≤` is transitive, and reflexive on whatever compares at all.
-/

namespace Formula

open Float.Model (UnpackedFloat)

namespace Rank

/-- Sign and kind first, then exponent, then mantissa. -/
def of : UnpackedFloat → Int ×ₗ Int ×ₗ Int
  | .infinity .negative => toLex (-2, toLex (0, 0))
  | .finite .negative m e _ => toLex (-1, toLex (-e, -m))
  | .zero _ | .notANumber => toLex (0, toLex (0, 0))
  | .finite .positive m e _ => toLex (1, toLex (e, m))
  | .infinity .positive => toLex (2, toLex (0, 0))

theorem then_compare (e e' : Int) (m m' : Nat) :
    (((compare e e').then (compare m m')).isLE ↔ e < e' ∨ e = e' ∧ m ≤ m') ∧
      (((compare e e').then (compare m m')).isGE ↔ e' < e ∨ e = e' ∧ m' ≤ m) := by
  rcases lt_trichotomy e e' with h | rfl | h
  · simp [compare_lt_iff_lt.2 h, h, h.ne, h.le]
  · simp [Nat.isLE_compare, Nat.isGE_compare]
  · simp [compare_gt_iff_gt.2 h, h, h.ne', h.le]

theorem le_iff (a b : UnpackedFloat) : a.le b ↔ a ≠ .notANumber ∧ b ≠ .notANumber ∧ of a ≤ of b := by
  unfold UnpackedFloat.le UnpackedFloat.compare
  rcases a with (_ | _) | _ | _ | ⟨_ | _, m, e, hm⟩ <;> rcases b with (_ | _) | _ | _ | ⟨_ | _, m', e', hm'⟩ <;>
    simp [of, Prod.Lex.toLex_le_toLex, then_compare] <;> rfl

theorem lt_iff (a b : UnpackedFloat) : a.lt b ↔ a ≠ .notANumber ∧ b ≠ .notANumber ∧ of a < of b := by
  unfold UnpackedFloat.lt UnpackedFloat.compare
  rcases a with (_ | _) | _ | _ | ⟨_ | _, m, e, hm⟩ <;> rcases b with (_ | _) | _ | _ | ⟨_ | _, m', e', hm'⟩ <;>
    simp [of, Prod.Lex.toLex_lt_toLex, Ordering.then_eq_lt, Ordering.then_eq_gt, compare_gt_iff_gt, compare_lt_iff_lt]
  case infinity.negative.infinity.positive => rfl

end Rank

namespace Scalar

variable {a b c : Float}

theorem le_iff : a ≤ b ↔ a.toModel.unpack.le b.toModel.unpack := by
  change decide (a.toModel ≤ b.toModel) = true ↔ a.toModel ≤ b.toModel
  rw [decide_eq_true_iff]

theorem le_trans (h : a ≤ b) (h' : b ≤ c) : a ≤ c := by
  rw [le_iff, Rank.le_iff] at h h' ⊢
  exact ⟨h.1, h'.2.1, h.2.2.trans h'.2.2⟩

theorem le_refl_left (h : a ≤ b) : a ≤ a := by
  rw [le_iff, Rank.le_iff] at h ⊢
  exact ⟨h.1, h.1, le_rfl⟩

theorem le_refl_right (h : a ≤ b) : b ≤ b := by
  rw [le_iff, Rank.le_iff] at h ⊢
  exact ⟨h.2.1, h.2.1, le_rfl⟩

theorem lt_iff : a < b ↔ a.toModel.unpack.lt b.toModel.unpack := by
  change decide (a.toModel < b.toModel) = true ↔ a.toModel < b.toModel
  rw [decide_eq_true_iff]

theorem isNaN_iff : a.isNaN ↔ a.toModel.unpack = .notANumber := UnpackedFloat.isNaN_iff

/-- What is not at most another is more, or one of them is not a number. -/
theorem not_le_iff : ¬ a ≤ b ↔ b < a ∨ a.isNaN ∨ b.isNaN := by
  rw [le_iff, Rank.le_iff, lt_iff, Rank.lt_iff, isNaN_iff, isNaN_iff, ← not_le]
  tauto

end Scalar

end Formula
