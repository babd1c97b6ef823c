import Formula.Proofs.Iteration
import Formula.Proofs.Pointwise
import Formula.Proofs.Roots
import Formula.Proofs.Scalar.Opposed

/-!
Where two curves meet does not depend on which of them is named first. The search runs on their difference, and turned
round it has the opposite value everywhere: every test of the scan comes out the same, and so does every step of the
iteration. The sign of a zero could be told only by an iteration that stands at `-0`, and there the difference is no zero.
-/

namespace Formula

variable {α : Type} [Scalar α] {f g : α → α} {accuracy : α} {Sound : α → Prop}

/-! ## Runs in step -/

/-- From a sound iterate the iterations on `f` and `g` go to the same sound iterate, or both diverge. -/
structure StepAlike (f g : α → α) (accuracy : α) (Sound : α → Prop) : Prop where
  next : ∀ x, Sound x → newtonStep g accuracy x = newtonStep f accuracy x ∨
    Scalar.isFinite (newtonStep g accuracy x) = false ∧ Scalar.isFinite (newtonStep f accuracy x) = false
  sound : ∀ x, Sound x → ¬ Scalar.abs (newtonStep f accuracy x - x) ≤ accuracy → Sound (newtonStep f accuracy x)

theorem outcome_proceed_succ (f : α → α) (accuracy : α) (left index : Nat) (x : α) (before : List (Iterate α)) :
    (NewtonRun.proceed f accuracy (left + 1) index x before).outcome =
      if !Scalar.isFinite (newtonStep f accuracy x) then .error (.diverged x)
      else if Scalar.abs (newtonStep f accuracy x - x) ≤ accuracy then .ok (newtonStep f accuracy x)
      else (NewtonRun.proceed f accuracy left (index + 1) (newtonStep f accuracy x)
        (.of f accuracy index x :: before)).outcome := by
  rw [NewtonRun.proceed]
  split
  · next h => exact (if_pos h).symm
  · next h =>
    refine Eq.trans ?_ (if_neg h).symm
    split
    · next h => exact (if_pos h).symm
    · next h => exact (if_neg h).symm

theorem StepAlike.outcome_proceed (h : StepAlike f g accuracy Sound) (left index : Nat) {x : α} (hx : Sound x)
    (before before' : List (Iterate α)) :
    (NewtonRun.proceed g accuracy left index x before').outcome =
      (NewtonRun.proceed f accuracy left index x before).outcome := by
  -- the iterates before differ in their slopes, which the outcome does not tell
  induction left generalizing index x before before' with
  | zero => rfl
  | succ left ih =>
    rw [outcome_proceed_succ, outcome_proceed_succ]
    rcases h.next x hx with hnext | ⟨hg, hf⟩
    · rw [hnext]
      by_cases hclose : Scalar.abs (newtonStep f accuracy x - x) ≤ accuracy
      · rw [if_pos hclose, if_pos hclose]
      · rw [if_neg hclose, if_neg hclose, ih _ (h.sound x hx hclose)]
    · rw [hg, hf]
      rfl

/-! ## Scans in step -/

/-- Functions that a search with this accuracy cannot tell apart: they are zero and finite in the same places, their values
have products that are the same, and the iterations start from a sound place. -/
structure Alike (f g : α → α) (accuracy : α) (Sound : α → Prop) : Prop extends StepAlike f g accuracy Sound where
  beq_zero : ∀ x, (g x == 0.0) = (f x == 0.0)
  isFinite : ∀ x, Scalar.isFinite (g x) = Scalar.isFinite (f x)
  mul : ∀ x y, (f x == 0.0) = false → (f y == 0.0) = false → g x * g y = f x * f y
  start : ∀ x, (f x == 0.0) = false → Sound (x + accuracy)

namespace Finder

variable {finder : Finder α}

theorem root?_inspect_of_alike (h : Alike f g finder.accuracy Sound) (isLast : Bool) (x₁ x₂ : α) :
    (finder.inspect g isLast x₁ x₂).root? = (finder.inspect f isLast x₁ x₂).root? := by
  unfold inspect
  dsimp only
  rw [h.beq_zero, h.beq_zero, h.isFinite, h.isFinite]
  cases h₁ : f x₁ == 0.0 with
  | true => rfl
  | false =>
    cases h₂ : f x₂ == 0.0 with
    | true => rfl
    | false =>
      have houtcome := h.outcome_proceed finder.maxIterations 0 (h.start x₁ h₁) [] []
      rw [h.mul x₁ x₂ h₁ h₂, if_neg Bool.false_ne_true, if_neg Bool.false_ne_true, if_neg Bool.false_ne_true,
        if_neg Bool.false_ne_true]
      split
      · rfl
      · exact congrArg Except.toOption houtcome

theorem roots_of_alike (h : Alike f g finder.accuracy Sound) (lower upper : α) :
    finder.roots g lower upper = finder.roots f lower upper := by
  simp only [roots, scan, List.filterMap_map, Function.comp_def, root?_inspect_of_alike h]

end Finder

/-! ## Two curves -/

namespace Sequence

/-- The difference of two sequences is undefined where one of them is. -/
theorem eval_merge_sub {a b : Sequence α} (ha : a.Closed) (hb : b.Closed) (x : α) :
    (a.merge b .sub).eval x = match a.cell? x, b.cell? x with
      | some c, some d => c.value - d.value
      | _, _ => Scalar.nan := by
  rw [eval, cell?, cell?, cell?, cell_merge ha hb]
  cases a.cell x with
  | error e => cases b.cell x <;> rfl
  | ok c => cases b.cell x <;> rfl

end Sequence

theorem opposed_merge_sub {a b : Sequence Float} (ha : a.Closed) (hb : b.Closed) (x : Float) :
    Scalar.Opposed ((a.merge b .sub).eval x) ((b.merge a .sub).eval x) := by
  rw [Sequence.eval_merge_sub ha hb, Sequence.eval_merge_sub hb ha]
  cases a.cell? x with
  | none => cases b.cell? x <;> exact Scalar.opposed_nan
  | some c =>
    cases b.cell? x with
    | none => exact Scalar.opposed_nan
    | some d => exact Scalar.opposed_sub_comm c.value d.value

/-- An iterate is `-0` only where the iteration has started from there, which it does from no zero. -/
def NoLostZero (f : Float → Float) (accuracy x : Float) : Prop := x = -0.0 → accuracy = -0.0 ∧ (f x == 0.0) = false

theorem alike_of_opposed {f g : Float → Float} (h : ∀ x, Scalar.Opposed (f x) (g x)) (accuracy : Float) :
    Alike f g accuracy (NoLostZero f accuracy) where
  beq_zero x := (h x).beq_zero
  isFinite x := (h x).isFinite
  mul x y hx hy := (h x).mul (h y) hx hy
  start x hx hzero := by
    obtain ⟨rfl, rfl⟩ := Scalar.eq_negZero_of_add_eq hzero
    exact ⟨rfl, hzero.symm ▸ hx⟩
  next x hx :=
    (h x).sub_div (((h (x + accuracy)).sub (h (x - accuracy))).div (2.0 * accuracy)) fun hzero => (hx hzero).2
  sound x hx hfar hzero := by
    -- such a step does not leave its place, and an iteration with accuracy zero ends there
    obtain rfl := Scalar.eq_negZero_of_sub_eq hzero
    obtain ⟨rfl, -⟩ := hx rfl
    rw [hzero] at hfar
    exact absurd (by decide +kernel) hfar

namespace Finder

/-- The points where two curves meet have the same horizontal places in the same order whichever curve comes first; it only
gives the points their heights. -/
theorem intersections_comm (finder : Finder Float) {a b : Sequence Float} (ha : a.WellFormed) (hb : b.WellFormed)
    (lower upper : Float) : ∃ xs : List Float,
      finder.intersections a b lower upper = xs.map (fun x => ⟨x, a.eval x⟩) ∧
      finder.intersections b a lower upper = xs.map (fun x => ⟨x, b.eval x⟩) := by
  have halike := alike_of_opposed (opposed_merge_sub ha.closed hb.closed) finder.accuracy
  refine ⟨finder.roots (a.merge b .sub).eval lower upper, rfl, ?_⟩
  rw [← roots_of_alike halike]
  rfl

/-- `x` and `1` meet at `1`. -/
theorem intersections_comm_one :
    Sequence.WellFormed [Token.var (α := Float) .independent] ∧ Sequence.WellFormed [Token.number (1.0 : Float)] ∧
    intersections { standard with intervals := 2 } [.var .independent] [.number (1.0 : Float)] 0.0 2.0 =
      [⟨1.0, 1.0⟩] ∧
    intersections { standard with intervals := 2 } [.number (1.0 : Float)] [.var .independent] 0.0 2.0 =
      [⟨1.0, 1.0⟩] := by
  have hx : Sequence.WellFormed [Token.var (α := Float) .independent] := (Term.var .independent).wellFormed_postorder
  have hone : Sequence.WellFormed [Token.number (1.0 : Float)] := (Term.number 1.0).wellFormed_postorder
  obtain ⟨xs, hab, hba⟩ := intersections_comm { standard with intervals := 2 } hx hone 0.0 2.0
  have hxs : xs = [1.0] := by
    have hroots := map_x_intersections { standard with intervals := 2 } [.var .independent] [.number (1.0 : Float)] 0.0 2.0
    rw [hab, List.map_map] at hroots
    have hid : (Point.x ∘ fun x : Float => (⟨x, Sequence.eval [.var .independent] x⟩ : Point Float)) = id := rfl
    rw [hid, List.map_id] at hroots
    rw [hroots]
    decide +kernel
  subst hxs
  exact ⟨hx, hone, hab, hba⟩

end Finder

end Formula
