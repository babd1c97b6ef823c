import Formula.Proofs.Scalar.Exact

/-!
Arithmetic without rounding on the numbers of any ordered field, the real ones too, and what is known of the values beside
them: an operation gives a number back only where they are kept apart from it, but for a quotient by an infinite value.
-/

namespace Formula

namespace Scalar

/-- The finite values are the numbers of `K`, and no operation on them is rounded. A difference, a product or the dividend of
a quotient has to be finite for the result to be; to divide by zero is never finite, and to divide a number by an infinite
value gives zero. A positive multiple of an infinite size is above all numbers. -/
structure Unrounded {K α : Type} [Field K] [LinearOrder K] [Scalar α] (number : K → α) : Prop where
  isFinite_iff : ∀ v : α, isFinite v ↔ ∃ q, v = number q
  two : (2.0 : α) = number 2
  add : ∀ p q, number p + number q = number (p + q)
  sub : ∀ p q, number p - number q = number (p - q)
  mul : ∀ p q, number p * number q = number (p * q)
  div : ∀ p q, q ≠ 0 → number p / number q = number (p / q)
  abs : ∀ q, Scalar.abs (number q) = number |q|
  le : ∀ p q, number p ≤ number q ↔ p ≤ q
  isFinite_of_sub : ∀ v w : α, isFinite (v - w) → isFinite v ∧ isFinite w
  isFinite_of_mul : ∀ v w : α, isFinite (v * w) → isFinite v ∧ isFinite w
  isFinite_of_div : ∀ v w : α, isFinite (v / w) → isFinite v
  isFinite_div_zero : ∀ p, isFinite (number p / number 0) = false
  isNaN_zero_div_zero : isNaN (number 0 / number 0)
  isFinite_of_isNaN : ∀ v : α, isNaN v → isFinite v = false
  div_of_not_finite : ∀ v w : α, isFinite w = false → v / w = number 0 ∧ isNaN w = false ∨ isNaN (v / w)
  le_mul_infinite : ∀ p ε (w : α), 0 < ε → isFinite w = false → isNaN w = false → number p ≤ number ε * Scalar.abs w

namespace Unrounded

variable {K α : Type} [Field K] [LinearOrder K] [Scalar α] {number : K → α} (hu : Unrounded number)
include hu

theorem injective : Function.Injective number := fun p q h =>
  le_antisymm ((hu.le p q).1 (h ▸ (hu.le p p).2 le_rfl)) ((hu.le q p).1 (h ▸ (hu.le p p).2 le_rfl))

theorem isFinite (q : K) : Scalar.isFinite (number q) := (hu.isFinite_iff _).2 ⟨q, rfl⟩

theorem exists_number {v : α} (h : Scalar.isFinite v) : ∃ q, v = number q := (hu.isFinite_iff v).1 h

theorem isNaN_of_isFinite {v : α} (h : Scalar.isFinite v) : isNaN v = false := by
  by_contra hn
  rw [hu.isFinite_of_isNaN v (by simpa using hn)] at h
  cases h

end Unrounded

end Scalar

namespace Extended

open Scalar

theorem isFinite_iff (v : Extended) : isFinite v ↔ ∃ q, v = number q := by
  refine ⟨complete.exists_number v, ?_⟩
  rintro ⟨q, rfl⟩
  exact complete.isFinite q

theorem isFinite_eq_false_iff (v : Extended) : isFinite v = false ↔ v = nan ∨ ∃ s, v = infinity s := by
  rw [← Bool.not_eq_true, isFinite_iff]
  cases v <;> simp

theorem unrounded : Unrounded number where
  isFinite_iff := isFinite_iff
  two := exact.two
  add := exact.add
  sub := exact.sub
  mul := exact.mul
  div := exact.div
  abs := exact.abs
  le := exact.le
  isFinite_of_sub v w h := by
    obtain ⟨q, hq⟩ := (isFinite_iff _).1 h
    change add v (neg w) = number q at hq
    rw [isFinite_iff, isFinite_iff]
    cases v <;> cases w <;> simp [add, neg] at hq ⊢
    split at hq <;> cases hq
  isFinite_of_mul v w h := by
    obtain ⟨q, hq⟩ := (isFinite_iff _).1 h
    change mul v w = number q at hq
    rw [isFinite_iff, isFinite_iff]
    cases v <;> cases w <;> simp [mul] at hq ⊢
    all_goals split at hq <;> cases hq
  isFinite_of_div v w h := by
    obtain ⟨q, hq⟩ := (isFinite_iff _).1 h
    change div v w = number q at hq
    rw [isFinite_iff]
    cases v <;> cases w <;> simp [div] at hq ⊢
  isFinite_div_zero p := by
    rw [isFinite_eq_false_iff]
    change div (number p) (number 0) = nan ∨ ∃ s, div (number p) (number 0) = infinity s
    by_cases hp : p = 0
    · exact .inl (by simp [div, hp])
    · exact .inr ⟨p < 0, by simp [div, hp]⟩
  isNaN_zero_div_zero := rfl
  isFinite_of_isNaN v h := (isFinite_eq_false_iff v).2 (.inl (of_decide_eq_true h))
  div_of_not_finite v w h := by
    rcases (isFinite_eq_false_iff w).1 h with rfl | ⟨s, rfl⟩
    · cases v <;> exact .inr rfl
    · cases v with
      | number q => exact .inl ⟨rfl, rfl⟩
      | nan | infinity => exact .inr rfl
  le_mul_infinite p ε w hε hw hn := by
    rcases (isFinite_eq_false_iff w).1 hw with rfl | ⟨s, rfl⟩
    · cases hn
    · have hprod : mul (number ε) (infinity false) = infinity false := by simp [mul, hε.ne', hε.not_gt]
      change less (number p) (mul (number ε) (infinity false)) || equal (number p) (mul (number ε) (infinity false))
      rw [hprod]
      rfl

end Extended

end Formula
