import Formula.Roots
import Formula.Proofs.Scalar.Order

/-!
Where the roots that are found lie. The parts of an interval are looked at from left to right and a zero on a cut is
taken as it is, so roots are out of place only where the iteration leaves the part it was started for; nothing stops it
from doing so.
-/

namespace Formula

variable {α : Type}

namespace Verdict

/-- The iteration has not left its part, or has come to no root. -/
def Contained [LE α] : Verdict α → Prop
  | zero _ | quiet => True
  | refined lower upper run => ∀ r ∈ run.outcome.toOption, lower ≤ r ∧ r ≤ upper

instance [LE α] [DecidableLE α] : DecidablePred (Contained (α := α)) := fun v =>
  match v with
  | zero _ | quiet => inferInstanceAs (Decidable True)
  | refined lower upper run => inferInstanceAs (Decidable (∀ r ∈ run.outcome.toOption, lower ≤ r ∧ r ≤ upper))

end Verdict

namespace Finder

variable [Scalar α] {finder : Finder α} {f : α → α} {lower upper : α}

/-- The cuts, both ends of the interval among them. -/
def cut (finder : Finder α) (lower upper : α) (i : Nat) : α :=
  gridPoint lower ((upper - lower) / Scalar.ofNat finder.intervals) i

/-- What the `i`-th part contributes. -/
def part (finder : Finder α) (f : α → α) (lower upper : α) (i : Nat) : Verdict α :=
  finder.inspect f (i + 1 == finder.intervals) (finder.cut lower upper i) (finder.cut lower upper (i + 1))

theorem scan_eq : finder.scan f lower upper = (List.range finder.intervals).map (finder.part f lower upper) := rfl

theorem mem_scan {v : Verdict α} :
    v ∈ finder.scan f lower upper ↔ ∃ i < finder.intervals, finder.part f lower upper i = v := by
  simp [scan_eq]

theorem mem_roots {r : α} :
    r ∈ finder.roots f lower upper ↔ ∃ i < finder.intervals, (finder.part f lower upper i).root? = some r := by
  simp [roots, scan_eq]

/-- The roots are those of the parts, in the order of the parts. -/
theorem roots_eq_flatMap (finder : Finder α) (f : α → α) (lower upper : α) :
    finder.roots f lower upper =
      (List.range finder.intervals).flatMap fun i => (finder.part f lower upper i).root?.toList := by
  rw [roots, scan_eq, List.filterMap_map, List.filterMap_eq_flatMap_toList]
  rfl

/-- The horizontal places of the points where two sequences meet are the roots of their difference. -/
theorem map_x_intersections (finder : Finder α) (a b : Sequence α) (lower upper : α) :
    (finder.intersections a b lower upper).map Point.x = finder.roots (a.merge b .sub).eval lower upper := by
  simp [intersections, points, meetings, roots, Function.comp_def]

/-- All that can come of a part from `x₁` to `x₂`. -/
inductive Inspected (finder : Finder α) (f : α → α) (isLast : Bool) (x₁ x₂ : α) : Verdict α → Prop
  | left : f x₁ == 0.0 → Inspected finder f isLast x₁ x₂ (.zero x₁)
  | last : (f x₁ == 0.0) = false → f x₂ == 0.0 → isLast → Inspected finder f isLast x₁ x₂ (.zero x₂)
  | next : (f x₁ == 0.0) = false → f x₂ == 0.0 → isLast = false → Inspected finder f isLast x₁ x₂ .quiet
  | quiet : (f x₁ == 0.0) = false → (f x₂ == 0.0) = false →
      Scalar.isFinite (f x₁) = false ∨ Scalar.isFinite (f x₂) = false ∨ 0.0 < f x₁ * f x₂ →
      Inspected finder f isLast x₁ x₂ .quiet
  | refined : (f x₁ == 0.0) = false → (f x₂ == 0.0) = false →
      Scalar.isFinite (f x₁) → Scalar.isFinite (f x₂) → ¬ 0.0 < f x₁ * f x₂ →
      Inspected finder f isLast x₁ x₂
        (.refined x₁ x₂ (newton f (x₁ + finder.accuracy) finder.accuracy finder.maxIterations))

theorem inspected (finder : Finder α) (f : α → α) (isLast : Bool) (x₁ x₂ : α) :
    finder.Inspected f isLast x₁ x₂ (finder.inspect f isLast x₁ x₂) := by
  unfold inspect
  dsimp only
  cases h₁ : f x₁ == 0.0 with
  | true => exact .left h₁
  | false =>
    cases h₂ : f x₂ == 0.0 with
    | true =>
      cases isLast with
      | true => exact .last h₁ h₂ rfl
      | false => exact .next h₁ h₂ rfl
    | false =>
      rw [if_neg (by simp), if_neg (by simp)]
      split
      · next hq => exact .quiet h₁ h₂ (by simpa [or_assoc] using hq)
      · next hq =>
        simp only [Bool.or_eq_true, Bool.not_eq_true', decide_eq_true_eq, not_or, Bool.not_eq_false] at hq
        exact .refined h₁ h₂ hq.1.1 hq.1.2 hq.2

end Finder

/-! ## Places -/

namespace Finder

variable {finder : Finder Float} {f : Float → Float} {lower upper : Float}

/-- The cuts ascend and stay in the interval, which rounding does not promise at the upper end. -/
structure Ascending (finder : Finder Float) (lower upper : Float) : Prop where
  lower_le : lower ≤ finder.cut lower upper 0
  step : ∀ i < finder.intervals, finder.cut lower upper i ≤ finder.cut lower upper (i + 1)
  le_upper : finder.cut lower upper finder.intervals ≤ upper

namespace Ascending

variable (hg : finder.Ascending lower upper)
include hg

theorem le_cut {i j : Nat} (hij : i ≤ j) (hj : j ≤ finder.intervals) {r : Float} (h : r ≤ finder.cut lower upper i) :
    r ≤ finder.cut lower upper j := by
  induction j, hij using Nat.le_induction with
  | base => exact h
  | succ j _ ih => exact Scalar.le_trans (ih (by omega)) (hg.step j (by omega))

theorem mem_interval {i : Nat} (hi : i < finder.intervals) {r : Float} (hl : finder.cut lower upper i ≤ r)
    (hu : r ≤ finder.cut lower upper (i + 1)) : lower ≤ r ∧ r ≤ upper :=
  ⟨Scalar.le_trans (hg.le_cut (Nat.zero_le i) hi.le hg.lower_le) hl,
    Scalar.le_trans (hg.le_cut hi le_rfl hu) hg.le_upper⟩

theorem part_root {i : Nat} (hi : i < finder.intervals) {r : Float}
    (h : (finder.part f lower upper i).root? = some r) :
    (finder.cut lower upper i ≤ r ∧ r ≤ finder.cut lower upper (i + 1)) ∨
    ∃ run, finder.part f lower upper i = .refined (finder.cut lower upper i) (finder.cut lower upper (i + 1)) run ∧
      run.outcome.toOption = some r := by
  have hstep := hg.step i hi
  have hp := finder.inspected f (i + 1 == finder.intervals) (finder.cut lower upper i) (finder.cut lower upper (i + 1))
  rw [← part] at hp
  generalize finder.part f lower upper i = v at hp h ⊢
  cases hp with
  | left =>
    obtain rfl := Option.some.inj h
    exact .inl ⟨Scalar.le_refl_left hstep, hstep⟩
  | last =>
    obtain rfl := Option.some.inj h
    exact .inl ⟨hstep, Scalar.le_refl_right hstep⟩
  | next | quiet => cases h
  | refined => exact .inr ⟨_, rfl, h⟩

theorem root_mem_part {i : Nat} (hi : i < finder.intervals) {r : Float}
    (h : (finder.part f lower upper i).root? = some r) (hk : (finder.part f lower upper i).Contained) :
    finder.cut lower upper i ≤ r ∧ r ≤ finder.cut lower upper (i + 1) := by
  rcases hg.part_root hi h with hr | ⟨run, hv, hr⟩
  · exact hr
  · rw [hv] at hk
    exact hk r hr

theorem roots_pairwise (hk : ∀ v ∈ finder.scan f lower upper, v.Contained) :
    (finder.roots f lower upper).Pairwise (· ≤ ·) := by
  have hpart : ∀ i < finder.intervals, (finder.part f lower upper i).Contained := fun i hi =>
    hk _ (mem_scan.2 ⟨i, hi, rfl⟩)
  rw [roots, scan_eq, List.pairwise_filterMap, List.pairwise_map]
  refine List.pairwise_lt_range.imp_of_mem ?_
  intro i j hi hj hij r hr s hs
  rw [List.mem_range] at hi hj
  -- the cut where the earlier part ends lies between the two
  exact Scalar.le_trans (hg.le_cut hij hj.le (hg.root_mem_part hi hr (hpart i hi)).2)
    (hg.root_mem_part hj hs (hpart j hj)).1

theorem roots_mem_interval_iff : (∀ r ∈ finder.roots f lower upper, lower ≤ r ∧ r ≤ upper) ↔
    ∀ x₁ x₂ run, .refined x₁ x₂ run ∈ finder.scan f lower upper →
      ∀ r ∈ run.outcome.toOption, lower ≤ r ∧ r ≤ upper := by
  constructor
  · intro h x₁ x₂ run hv r hr
    obtain ⟨i, hi, hp⟩ := mem_scan.1 hv
    exact h r (mem_roots.2 ⟨i, hi, by rw [hp]; exact hr⟩)
  · intro h r hr
    obtain ⟨i, hi, hroot⟩ := mem_roots.1 hr
    rcases hg.part_root hi hroot with ⟨hl, hu⟩ | ⟨run, hv, hr⟩
    · exact hg.mem_interval hi hl hu
    · exact h _ _ run (mem_scan.2 ⟨i, hi, hv⟩) r hr

end Ascending

theorem Ascending.roots_in_order (hg : finder.Ascending lower upper)
    (hk : ∀ v ∈ finder.scan f lower upper, v.Contained) :
    (finder.roots f lower upper).Pairwise (· ≤ ·) ∧ ∀ r ∈ finder.roots f lower upper, lower ≤ r ∧ r ≤ upper := by
  refine ⟨hg.roots_pairwise hk, fun r hr => ?_⟩
  obtain ⟨i, hi, hroot⟩ := mem_roots.1 hr
  obtain ⟨hl, hu⟩ := hg.root_mem_part hi hroot (hk _ (mem_scan.2 ⟨i, hi, rfl⟩))
  exact hg.mem_interval hi hl hu

/-- Over ascending cuts the roots lie in the interval exactly if the iteration never comes to a root outside, and they
ascend as well if it stays in its parts. The same goes for the points where two sequences meet. -/
theorem roots_ascend (hg : finder.Ascending lower upper) :
    (∀ f, (∀ r ∈ finder.roots f lower upper, lower ≤ r ∧ r ≤ upper) ↔
      ∀ x₁ x₂ run, .refined x₁ x₂ run ∈ finder.scan f lower upper →
        ∀ r ∈ run.outcome.toOption, lower ≤ r ∧ r ≤ upper) ∧
    (∀ f, (∀ v ∈ finder.scan f lower upper, v.Contained) → (finder.roots f lower upper).Pairwise (· ≤ ·) ∧
      ∀ r ∈ finder.roots f lower upper, lower ≤ r ∧ r ≤ upper) ∧
    ∀ a b : Sequence Float, (∀ v ∈ finder.meetings a b lower upper, v.Contained) →
      (finder.intersections a b lower upper).Pairwise (fun p q => p.x ≤ q.x) ∧
        ∀ p ∈ finder.intersections a b lower upper, lower ≤ p.x ∧ p.x ≤ upper := by
  refine ⟨fun f => hg.roots_mem_interval_iff, fun f hk => hg.roots_in_order hk, fun a b hk => ?_⟩
  have horder := hg.roots_in_order hk
  rw [← map_x_intersections, List.pairwise_map] at horder
  exact ⟨horder.1, fun p hp => horder.2 p.x (List.mem_map_of_mem hp)⟩

/-- `(x + 1) * (3 - x)` -/
def hill : Sequence Float :=
  [.var .independent, .number 1.0, .op .add, .number 3.0, .var .independent, .op .sub, .op .mul]

/-- `(x + 6) * (x + 1) * (x - 1)` -/
def wave : Sequence Float :=
  [.var .independent, .number 6.0, .op .add, .var .independent, .number 1.0, .op .add, .op .mul,
    .var .independent, .number 1.0, .op .sub, .op .mul]

theorem roots_ascend_hill :
    (roots ({ standard with intervals := 3 } : Finder Float) hill.eval (-2.0) 4.0).length = 2 ∧
    (roots ({ standard with intervals := 3 } : Finder Float) hill.eval (-2.0) 4.0).Pairwise (· ≤ ·) := by
  have hg : Ascending { standard with intervals := 3 } (-2.0) 4.0 :=
    ⟨by decide +kernel, by decide +kernel, by decide +kernel⟩
  refine ⟨by decide +kernel, ((roots_ascend hg).2.1 hill.eval ?_).1⟩
  decide +kernel

/-- A root may lie outside the interval, and one that lies inside may come too early. -/
theorem roots_misplaced :
    (∃ r ∈ roots ({ standard with intervals := 1 } : Finder Float) hill.eval 0.0 4.0, r < 0.0) ∧
    roots ({ standard with intervals := 2 } : Finder Float) wave.eval (-4.0) 3.0 = [1.0, -1.0] ∧
    ¬ (roots ({ standard with intervals := 2 } : Finder Float) wave.eval (-4.0) 3.0).Pairwise (· ≤ ·) := by
  have hwave : roots ({ standard with intervals := 2 } : Finder Float) wave.eval (-4.0) 3.0 = [1.0, -1.0] := by
    decide +kernel
  refine ⟨by decide +kernel, hwave, ?_⟩
  rw [hwave]
  decide +kernel

end Finder

end Formula
