import Formula.Proofs.Zeros
import Formula.Proofs.Scalar.Product

/-!
Which parts are handed to Newton's iteration. Whether the ends of a part have the same sign is told from a product of two
doubles, and rounding may lose it: where the exact product of the two values is at most half of the least double, the part is
refined although `f` keeps its sign. No other part without a change of sign is.
-/

namespace Formula

namespace Finder

variable (finder : Finder Float) (f : Float → Float) (lower upper : Float) (i : Nat)

/-- Both ends of a part have a finite value. -/
structure FiniteEnds : Prop where
  left : Scalar.isFinite (f (finder.cut lower upper i))
  right : Scalar.isFinite (f (finder.cut lower upper (i + 1)))

/-- The exact product of the values at the ends of a part: above zero where they have the same sign, below where it
changes. -/
def endProduct : ℚ := Scalar.value (f (finder.cut lower upper i)) * Scalar.value (f (finder.cut lower upper (i + 1)))

/-- What the iteration finds in a part. -/
def refine : NewtonRun Float :=
  newton f (finder.cut lower upper i + finder.accuracy) finder.accuracy finder.maxIterations

variable {finder f lower upper i}

theorem FiniteEnds.ends_ne_zero (h : finder.FiniteEnds f lower upper i) (hne : finder.endProduct f lower upper i ≠ 0) :
    (f (finder.cut lower upper i) == 0.0) = false ∧ (f (finder.cut lower upper (i + 1)) == 0.0) = false := by
  simp only [← Bool.not_eq_true, Scalar.beq_zero_iff h.left, Scalar.beq_zero_iff h.right]
  exact mul_ne_zero_iff.1 hne

theorem FiniteEnds.part_eq (h : finder.FiniteEnds f lower upper i) (hne : finder.endProduct f lower upper i ≠ 0) :
    finder.part f lower upper i = if halfLeast < finder.endProduct f lower upper i then .quiet
      else .refined (finder.cut lower upper i) (finder.cut lower upper (i + 1)) (finder.refine f lower upper i) := by
  have hlost := Scalar.zero_lt_mul_iff h.left h.right
  rw [← endProduct] at hlost
  simp only [part, inspect, h.ends_ne_zero hne, h.left, h.right, hlost, refine, Bool.not_true, Bool.false_or,
    decide_eq_true_eq, Bool.false_eq_true, if_false]

theorem of_part_eq_refined {x₁ x₂ : Float} {run : NewtonRun Float}
    (h : finder.part f lower upper i = .refined x₁ x₂ run) : run = finder.refine f lower upper i ∧
      finder.FiniteEnds f lower upper i ∧ finder.endProduct f lower upper i ≠ 0 ∧
      finder.endProduct f lower upper i ≤ halfLeast := by
  have hp := finder.inspected f (i + 1 == finder.intervals) (finder.cut lower upper i) (finder.cut lower upper (i + 1))
  rw [← part, h] at hp
  cases hp with
  | refined h₁ h₂ hl hr hp =>
    refine ⟨rfl, ⟨hl, hr⟩, mul_ne_zero ?_ ?_, not_lt.1 fun h => hp ((Scalar.zero_lt_mul_iff hl hr).2 h)⟩
    · rwa [← Bool.not_eq_true, Scalar.beq_zero_iff hl] at h₁
    · rwa [← Bool.not_eq_true, Scalar.beq_zero_iff hr] at h₂

theorem mem_zeros_or_refined {r : Float} (h : r ∈ finder.roots f lower upper) : r ∈ finder.zeros f lower upper ∨
    ∃ i < finder.intervals, ∃ x₁ x₂ run, finder.part f lower upper i = .refined x₁ x₂ run ∧
      run.outcome.toOption = some r := by
  obtain ⟨i, hi, hr⟩ := mem_roots.1 h
  cases hz : (finder.part f lower upper i).zero? with
  | some x =>
    obtain rfl := Option.some.inj ((Verdict.root?_of_zero? hz).symm.trans hr)
    exact .inl (List.mem_filterMap.2 ⟨_, mem_scan.2 ⟨i, hi, rfl⟩, hz⟩)
  | none => exact .inr ⟨i, hi, Verdict.refined_of_root? hr hz⟩

/-- A part whose ends have finite values of the same sign contributes nothing, unless their product is lost in rounding:
then it is refined. So a root that is no zero on a cut comes from a part where `f` changes its sign, or where the product is
lost. -/
theorem refined_where_sign_changes :
    (∀ i < finder.intervals, finder.FiniteEnds f lower upper i → 0 < finder.endProduct f lower upper i →
      (halfLeast < finder.endProduct f lower upper i →
        (finder.part f lower upper i).root? = none ∧ (finder.part f lower upper i).events = []) ∧
      (finder.endProduct f lower upper i ≤ halfLeast → finder.part f lower upper i =
        .refined (finder.cut lower upper i) (finder.cut lower upper (i + 1)) (finder.refine f lower upper i))) ∧
    ∀ r ∈ finder.roots f lower upper, r ∈ finder.zeros f lower upper ∨
      ∃ i < finder.intervals, (finder.refine f lower upper i).outcome.toOption = some r ∧
        finder.FiniteEnds f lower upper i ∧ (finder.endProduct f lower upper i < 0 ∨
          0 < finder.endProduct f lower upper i ∧ finder.endProduct f lower upper i ≤ halfLeast) := by
  refine ⟨fun i _ h hpos => ⟨fun hp => ?_, fun hp => ?_⟩, fun r hr => ?_⟩
  · rw [h.part_eq hpos.ne', if_pos hp]
    exact ⟨rfl, rfl⟩
  · rw [h.part_eq hpos.ne', if_neg hp.not_gt]
  · refine (mem_zeros_or_refined hr).imp_right fun ⟨i, hi, x₁, x₂, run, hv, ho⟩ => ?_
    obtain ⟨rfl, h, hne, hle⟩ := of_part_eq_refined hv
    exact ⟨i, hi, ho, h, hne.lt_or_gt.imp_right fun hpos => ⟨hpos, hle⟩⟩

/-- `x` -/
def identity : Sequence Float := [.var .independent]

/-- A search that does not cut the interval. -/
def whole : Finder Float := { standard with intervals := 1 }

theorem refined_where_sign_changes_identity :
    (0 < whole.endProduct identity.eval 1.0 2.0 0 ∧ (whole.part identity.eval 1.0 2.0 0).root? = none ∧
      (whole.part identity.eval 1.0 2.0 0).events = []) ∧
    (0.0 : Float) ∈ whole.roots identity.eval (-1.0) 2.0 ∧
    ((0.0 : Float) ∈ whole.zeros identity.eval (-1.0) 2.0 ∨
      ∃ i < 1, (whole.refine identity.eval (-1.0) 2.0 i).outcome.toOption = some 0.0 ∧
        whole.FiniteEnds identity.eval (-1.0) 2.0 i ∧ (whole.endProduct identity.eval (-1.0) 2.0 i < 0 ∨
          0 < whole.endProduct identity.eval (-1.0) 2.0 i ∧ whole.endProduct identity.eval (-1.0) 2.0 i ≤ halfLeast)) := by
  have hb : whole.FiniteEnds identity.eval 1.0 2.0 0 := ⟨by decide +kernel, by decide +kernel⟩
  have hpos : 0 < whole.endProduct identity.eval 1.0 2.0 0 := by decide +kernel
  have hroots : whole.roots identity.eval (-1.0) 2.0 = [0.0] := by decide +kernel
  have hmem : (0.0 : Float) ∈ whole.roots identity.eval (-1.0) 2.0 := hroots ▸ List.mem_singleton_self _
  exact ⟨⟨hpos, (refined_where_sign_changes.1 0 Nat.one_pos hb hpos).1 (by decide +kernel)⟩, hmem,
    refined_where_sign_changes.2 0.0 hmem⟩

/-- Between two tiny numbers `x` keeps its sign, the product of its values is lost, and a root outside is found. -/
theorem root_without_sign_change :
    whole.FiniteEnds identity.eval 1e-200 2e-200 0 ∧ 0 < whole.endProduct identity.eval 1e-200 2e-200 0 ∧
    whole.roots identity.eval 1e-200 2e-200 = [0.0] ∧ whole.zeros identity.eval 1e-200 2e-200 = [] :=
  ⟨⟨by decide +kernel, by decide +kernel⟩, by decide +kernel, by decide +kernel, by decide +kernel⟩

end Finder

end Formula
