import Formula.Event
import Formula.Proofs.Scalar.Unrounded

/-!
What Newton's iteration comes to. The places it goes through are a sequence that knows nothing of an end; a run follows it up
to the first place from which the next is not finite or hardly differs, and otherwise until its iterations are used up. So
what a run tells, its log and its outcome, is what the sequence is at that place.
-/

namespace Formula

variable {α : Type} [Scalar α]

/-- Where the iteration on `f` goes next from `x`. -/
def newtonStep (f : α → α) (accuracy x : α) : α := x - f x / centralSlope f accuracy x

/-- The places of an iteration that never ends. -/
def newtonPlace (f : α → α) (x₀ accuracy : α) : Nat → α
  | 0 => x₀
  | k + 1 => newtonStep f accuracy (newtonPlace f x₀ accuracy k)

/-- From the `k`-th place the iteration goes nowhere, or hardly anywhere. -/
def EndsAt (f : α → α) (x₀ accuracy : α) (k : Nat) : Prop :=
  Scalar.isFinite (newtonPlace f x₀ accuracy (k + 1)) = false ∨
    Scalar.abs (newtonPlace f x₀ accuracy (k + 1) - newtonPlace f x₀ accuracy k) ≤ accuracy

variable {f : α → α} {x₀ accuracy : α} {n : Nat}

theorem isFinite_newtonPlace {k : Nat} (h₀ : Scalar.isFinite x₀) (h : ∀ j < k, ¬ EndsAt f x₀ accuracy j) :
    Scalar.isFinite (newtonPlace f x₀ accuracy k) := by
  cases k with
  | zero => exact h₀
  | succ k =>
    by_contra hk
    exact h k (Nat.lt_succ_self k) (.inl (by simpa using hk))

namespace NewtonRun

/-- The outcomes of at most `n` iterations, each with the number of iterations that it takes. -/
inductive Course (f : α → α) (x₀ accuracy : α) (n : Nat) : Except (NewtonError α) α → Nat → Prop
  | converged {k : Nat} : k < n → (∀ j < k, ¬ EndsAt f x₀ accuracy j) →
      Scalar.isFinite (newtonPlace f x₀ accuracy (k + 1)) →
      Scalar.abs (newtonPlace f x₀ accuracy (k + 1) - newtonPlace f x₀ accuracy k) ≤ accuracy →
      Course f x₀ accuracy n (.ok (newtonPlace f x₀ accuracy (k + 1))) (k + 1)
  | diverged {k : Nat} : k < n → (∀ j < k, ¬ EndsAt f x₀ accuracy j) →
      Scalar.isFinite (newtonPlace f x₀ accuracy (k + 1)) = false →
      Course f x₀ accuracy n (.error (.diverged (newtonPlace f x₀ accuracy k))) (k + 1)
  | exhausted : (∀ j < n, ¬ EndsAt f x₀ accuracy j) →
      Course f x₀ accuracy n (.error (.noConvergence n (newtonPlace f x₀ accuracy n))) n

/-- The number that an outcome carries. -/
def value (run : NewtonRun α) : α :=
  match run.outcome with
  | .ok r => r
  | .error (.noConvergence _ x) => x
  | .error (.diverged x) => x

/-- The first `m` iterates of the sequence. -/
def iteratesTo (f : α → α) (x₀ accuracy : α) (m : Nat) : List (Iterate α) :=
  (List.range m).map fun i => .of f accuracy i (newtonPlace f x₀ accuracy i)

theorem iteratesTo_succ (f : α → α) (x₀ accuracy : α) (m : Nat) :
    iteratesTo f x₀ accuracy (m + 1) = iteratesTo f x₀ accuracy m ++ [.of f accuracy m (newtonPlace f x₀ accuracy m)] := by
  rw [iteratesTo, List.range_succ, List.map_append]
  rfl

/-! ## A run -/

-- On the iterations left: the run stands at the place of its index, has told all the iterates before, and none of them was
-- the last.
theorem course_proceed {left index : Nat} {before : List (Iterate α)} (hn : index + left = n)
    (hbefore : before.reverse = iteratesTo f x₀ accuracy index) (hgo : ∀ j < index, ¬ EndsAt f x₀ accuracy j) :
    ∃ m, Course f x₀ accuracy n (proceed f accuracy left index (newtonPlace f x₀ accuracy index) before).outcome m ∧
      (proceed f accuracy left index (newtonPlace f x₀ accuracy index) before).iterates = iteratesTo f x₀ accuracy m := by
  induction left generalizing index before with
  | zero =>
    obtain rfl : index = n := hn
    exact ⟨index, .exhausted hgo, hbefore⟩
  | succ left ih =>
    have hnext : (Iterate.of f accuracy index (newtonPlace f x₀ accuracy index)).next =
        newtonPlace f x₀ accuracy (index + 1) := rfl
    have htold : (Iterate.of f accuracy index (newtonPlace f x₀ accuracy index) :: before).reverse =
        iteratesTo f x₀ accuracy (index + 1) := by
      rw [List.reverse_cons, hbefore, iteratesTo_succ]
    have hlt : index < n := by omega
    rw [proceed, hnext]
    split
    · next hfinite => exact ⟨index + 1, .diverged hlt hgo (by simpa using hfinite), htold⟩
    · next hfinite =>
      rw [Bool.not_eq_true', Bool.not_eq_false] at hfinite
      split
      · next hclose => exact ⟨index + 1, .converged hlt hgo hfinite hclose, htold⟩
      · next hclose =>
        refine ih (by omega) htold fun j hj => ?_
        rcases Nat.lt_succ_iff_lt_or_eq.1 hj with hj | rfl
        · exact hgo j hj
        · rintro (h | h)
          · rw [hfinite] at h
            cases h
          · exact hclose h

theorem course_newton (f : α → α) (x₀ accuracy : α) (n : Nat) :
    ∃ m, Course f x₀ accuracy n (newton f x₀ accuracy n).outcome m ∧
      (newton f x₀ accuracy n).iterates = iteratesTo f x₀ accuracy m :=
  course_proceed (Nat.zero_add n) rfl fun j hj => absurd hj (Nat.not_lt_zero j)

theorem isFinite_value {run : NewtonRun α} {m : Nat} (h : Course f x₀ accuracy n run.outcome m)
    (h₀ : Scalar.isFinite x₀) : Scalar.isFinite run.value := by
  rw [value]
  generalize run.outcome = outcome at h ⊢
  cases h with
  | converged _ _ hfinite _ => exact hfinite
  | diverged _ hgo _ => exact isFinite_newtonPlace h₀ hgo
  | exhausted hgo => exact isFinite_newtonPlace h₀ hgo

end NewtonRun

/-! ## Without rounding -/

namespace Scalar.Unrounded

variable {K : Type} [Field K] [LinearOrder K] {number : K → α} (hu : Unrounded number)
include hu

/-- A central difference is a number other than zero, or infinite, only if its step is a number. -/
theorem exists_step {step x : α} (hne : centralSlope f step x ≠ number 0)
    (hnan : isNaN (centralSlope f step x) = false) : ∃ ε, step = number ε := by
  refine hu.exists_number ?_
  by_contra hstep
  have hdouble : Scalar.isFinite (2.0 * step) = false := by
    rw [← Bool.not_eq_true]
    exact fun h => hstep (hu.isFinite_of_mul _ _ h).2
  rcases hu.div_of_not_finite (f (x + step) - f (x - step)) (2.0 * step) hdouble with ⟨h, -⟩ | h
  · exact hne h
  · rw [centralSlope, h] at hnan
    cases hnan

/-- Without a step a central difference is not a number. -/
theorem isNaN_centralSlope_zero {x p : K} (hp : f (number x) = number p) :
    isNaN (centralSlope f (number 0) (number x)) := by
  rw [centralSlope, hu.add, hu.sub, add_zero, sub_zero, hp, hu.sub, hu.two, hu.mul, sub_self, mul_zero]
  exact hu.isNaN_zero_div_zero

variable [IsStrictOrderedRing K]

/-- The function is no larger where a step is short than the step allows at its slope. -/
theorem abs_le_mul_slope {x : α} (hfinite : Scalar.isFinite (newtonStep f accuracy x))
    (hclose : Scalar.abs (newtonStep f accuracy x - x) ≤ accuracy) :
    Scalar.abs (f x) ≤ accuracy * Scalar.abs (centralSlope f accuracy x) := by
  obtain ⟨hx, hquotient⟩ := hu.isFinite_of_sub _ _ hfinite
  obtain ⟨p, hp⟩ := hu.exists_number (hu.isFinite_of_div _ _ hquotient)
  obtain ⟨ξ, rfl⟩ := hu.exists_number hx
  obtain ⟨t, ht⟩ := hu.exists_number hquotient
  have hshort : number |t| ≤ accuracy := by
    rwa [newtonStep, ht, hu.sub, hu.sub, hu.abs, sub_sub_cancel_left, abs_neg] at hclose
  by_cases hslope : Scalar.isFinite (centralSlope f accuracy (number ξ))
  · obtain ⟨q, hq⟩ := hu.exists_number hslope
    have hne : q ≠ 0 := by
      rintro rfl
      rw [hp, hq, hu.isFinite_div_zero] at hquotient
      cases hquotient
    have hsteep : centralSlope f accuracy (number ξ) ≠ number 0 := by
      rw [hq]
      exact hu.injective.ne hne
    obtain ⟨ε, rfl⟩ := hu.exists_step hsteep (hu.isNaN_of_isFinite hslope)
    have hquot : p / q = t := hu.injective (by rw [← hu.div p q hne, ← hp, ← hq, ht])
    rw [hu.le, ← hquot, abs_div, div_le_iff₀ (abs_pos.2 hne)] at hshort
    rwa [hp, hq, hu.abs, hu.abs, hu.mul, hu.le]
  · -- an infinite slope: the step is zero, and no function value is above an infinite bound
    rw [Bool.not_eq_true] at hslope
    rcases hu.div_of_not_finite (f (number ξ)) _ hslope with ⟨hzero, hnan⟩ | hnan
    · have hsteep : centralSlope f accuracy (number ξ) ≠ number 0 := by
        intro h
        rw [h, hu.isFinite] at hslope
        cases hslope
      obtain ⟨ε, rfl⟩ := hu.exists_step hsteep hnan
      obtain rfl : t = 0 := hu.injective (ht.symm.trans hzero)
      rw [hu.le, abs_zero] at hshort
      rcases hshort.eq_or_lt with rfl | hpos
      · rw [hu.isNaN_centralSlope_zero hp] at hnan
        cases hnan
      · rw [hp, hu.abs]
        exact hu.le_mul_infinite _ _ _ hpos hslope hnan
    · rw [hu.isNaN_of_isFinite hquotient] at hnan
      cases hnan

end Scalar.Unrounded

/-! ## The outcome -/

/-- A run ends at the first place of the sequence from which the next one is not finite or close by, with an event for each
place it has gone on from. The number that it gives is finite if it has started from one; and without rounding a root is
close to a place where the function is small, as small as a short step makes it there. -/
theorem newton_outcome (f : α → α) (x₀ accuracy : α) (n : Nat) :
    let run := newton f x₀ accuracy n
    let x := newtonPlace f x₀ accuracy
    (∃ m, NewtonRun.Course f x₀ accuracy n run.outcome m ∧
      run.events = (List.range m).map (fun i => .iterate ⟨i, x i, centralSlope f accuracy (x i), x (i + 1)⟩) ∧
      ∀ e ∈ run.events, e.severity = .trace) ∧
    (Scalar.isFinite x₀ → Scalar.isFinite run.value) ∧
    ∀ {K : Type} [Field K] [LinearOrder K] [IsStrictOrderedRing K] (number : K → α), Scalar.Unrounded number →
      ∀ r, run.outcome = .ok r → ∃ k < n, Scalar.abs (r - x k) ≤ accuracy ∧
        Scalar.abs (f (x k)) ≤ accuracy * Scalar.abs (centralSlope f accuracy (x k)) := by
  intro run x
  obtain ⟨m, hcourse, hiterates⟩ := NewtonRun.course_newton f x₀ accuracy n
  refine ⟨⟨m, hcourse, ?_, ?_⟩, NewtonRun.isFinite_value hcourse, fun number hu r hr => ?_⟩
  · rw [NewtonRun.events, hiterates, NewtonRun.iteratesTo, List.map_map]
    rfl
  · intro e he
    obtain ⟨it, -, rfl⟩ := List.mem_map.1 he
    rfl
  · rw [hr] at hcourse
    cases hcourse with
    | @converged k hk _ hfinite hclose => exact ⟨k, hk, hclose, hu.abs_le_mul_slope hfinite hclose⟩

/-- From 1 the zero of `x * x - 2` is come to in three iterations of five. -/
theorem newton_outcome_root_two :
    let f : Extended → Extended := fun x => x * x - .number 2
    let x := newtonPlace f (.number 1) (.number (1 / 100))
    let run := newton f (.number 1) (.number (1 / 100)) 5
    (∃ m, NewtonRun.Course f (.number 1) (.number (1 / 100)) 5 run.outcome m ∧ run.events.length = m) ∧
    (Scalar.isFinite (Extended.number 1) ∧ Scalar.isFinite run.value) ∧
    Scalar.Unrounded Extended.number ∧ run.outcome = .ok (.number (577 / 408)) ∧
    ∃ k < 5, Scalar.abs (.number (577 / 408) - x k) ≤ .number (1 / 100) ∧
      Scalar.abs (f (x k)) ≤ .number (1 / 100) * Scalar.abs (centralSlope f (.number (1 / 100)) (x k)) := by
  intro f x run
  have hroot : run.outcome.toOption = some (.number (577 / 408)) := by decide +kernel
  have hr : run.outcome = .ok (.number (577 / 408)) := by
    cases h : run.outcome with
    | ok r =>
      rw [h] at hroot
      cases hroot
      rfl
    | error e =>
      rw [h] at hroot
      cases hroot
  obtain ⟨⟨m, hcourse, hevents, -⟩, hvalue, hsmall⟩ := newton_outcome f (.number 1) (.number (1 / 100)) 5
  have hfinite := Extended.exact.isFinite 1
  exact ⟨⟨m, hcourse, by rw [hevents]; simp⟩, ⟨hfinite, hvalue hfinite⟩, Extended.unrounded, hr,
    hsmall Extended.number Extended.unrounded _ hr⟩

end Formula
