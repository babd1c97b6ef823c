import Formula.Proofs.SignChange

/-!
What becomes of a change of sign. A part that is refined contributes a root, or a warning that names the part and the
reason, and no part contributes both; so a scan over `n` parts accounts for every change of sign by at most `n` roots and
warnings, both in the order of the parts.
-/

namespace Formula

variable {α : Type}

/-! ## The log -/

/-- The lines of a log that warn. -/
def warnings (log : List (Event α)) : List (Event α) := log.filter (·.severity == .warn)

theorem warnings_iterates (run : NewtonRun α) : warnings run.events = [] := by
  simp [warnings, NewtonRun.events, Event.severity]

namespace Verdict

/-- A run that fails is warned of once, whatever it has logged before. -/
theorem warnings_refined (lower upper : α) (run : NewtonRun α) :
    warnings (refined lower upper run).events = match run.outcome with
      | .ok _ => []
      | .error e => [.skipped lower upper e] := by
  rw [events, warnings, List.filter_append, ← warnings, warnings_iterates, List.nil_append]
  cases run.outcome <;> rfl

/-- A part contributes a root or a warning, and not both. -/
theorem length_contribution_le (v : Verdict α) : v.root?.toList.length + (warnings v.events).length ≤ 1 := by
  cases v with
  | zero | quiet => simp [root?, events, warnings]
  | refined lower upper run =>
    rw [warnings_refined, root?]
    cases run.outcome <;> simp [Except.toOption]

theorem length_contributions_le (vs : List (Verdict α)) :
    (vs.filterMap root?).length + (warnings (vs.flatMap events)).length ≤ vs.length := by
  induction vs with
  | nil => exact Nat.le_refl 0
  | cons v vs ih =>
    have hv := v.length_contribution_le
    have hroots : ((v :: vs).filterMap root?).length = v.root?.toList.length + (vs.filterMap root?).length := by
      rw [List.filterMap_cons]
      cases v.root? <;> simp [Nat.add_comm]
    have hlog : (warnings ((v :: vs).flatMap events)).length =
        (warnings v.events).length + (warnings (vs.flatMap events)).length := by
      simp [warnings]
    rw [hroots, hlog, List.length_cons]
    omega

end Verdict

/-! ## The scan -/

namespace Finder

/-- All that a scan logs. -/
def log [Scalar α] (finder : Finder α) (f : α → α) (lower upper : α) : List (Event α) :=
  (finder.scan f lower upper).flatMap Verdict.events

theorem warnings_log_eq_flatMap [Scalar α] (finder : Finder α) (f : α → α) (lower upper : α) :
    warnings (finder.log f lower upper) =
      (List.range finder.intervals).flatMap fun i => warnings (finder.part f lower upper i).events := by
  rw [log, scan_eq, warnings, List.filter_flatMap, List.flatMap_map]
  rfl

variable {finder : Finder Float} {f : Float → Float} {lower upper : Float} {i : Nat}

/-- The values at the ends of the part are finite, one of them below zero and one above. -/
structure SignChange (finder : Finder Float) (f : Float → Float) (lower upper : Float) (i : Nat) : Prop
    extends FiniteEnds finder f lower upper i where
  opposite : f (finder.cut lower upper i) < 0.0 ∧ 0.0 < f (finder.cut lower upper (i + 1)) ∨
    0.0 < f (finder.cut lower upper i) ∧ f (finder.cut lower upper (i + 1)) < 0.0

theorem SignChange.endProduct_neg (h : finder.SignChange f lower upper i) : finder.endProduct f lower upper i < 0 := by
  have hopposite := h.opposite
  rw [Scalar.lt_zero_iff h.left, Scalar.zero_lt_iff h.right, Scalar.zero_lt_iff h.left, Scalar.lt_zero_iff h.right] at hopposite
  exact mul_neg_iff.2 hopposite.symm

/-- No product of two doubles hides a change of sign, so each is refined. -/
theorem SignChange.part_eq (h : finder.SignChange f lower upper i) : finder.part f lower upper i =
    .refined (finder.cut lower upper i) (finder.cut lower upper (i + 1)) (finder.refine f lower upper i) := by
  have hneg := h.endProduct_neg
  have hleast : ¬ halfLeast < finder.endProduct f lower upper i :=
    not_lt.2 (hneg.le.trans (zpow_nonneg zero_le_two _))
  rw [h.toFiniteEnds.part_eq hneg.ne, if_neg hleast]

/-- A part with a change of sign contributes the root that the iteration comes to, or else one warning with its ends and the
reason; roots and warnings come in the order of the parts, no part contributes two of them, and all together they are not
more than the parts. -/
theorem sign_changes_accounted (finder : Finder Float) (f : Float → Float) (lower upper : Float) :
    (∀ i < finder.intervals, finder.SignChange f lower upper i →
      (∃ r, (finder.refine f lower upper i).outcome = .ok r ∧
        (finder.part f lower upper i).root? = some r ∧ warnings (finder.part f lower upper i).events = []) ∨
      ∃ e, (finder.refine f lower upper i).outcome = .error e ∧
        (finder.part f lower upper i).root? = none ∧ warnings (finder.part f lower upper i).events =
          [.skipped (finder.cut lower upper i) (finder.cut lower upper (i + 1)) e]) ∧
    (finder.roots f lower upper =
        (List.range finder.intervals).flatMap fun i => (finder.part f lower upper i).root?.toList) ∧
    (warnings (finder.log f lower upper) =
        (List.range finder.intervals).flatMap fun i => warnings (finder.part f lower upper i).events) ∧
    (∀ i < finder.intervals, (finder.part f lower upper i).root?.toList.length +
        (warnings (finder.part f lower upper i).events).length ≤ 1) ∧
    (finder.roots f lower upper).length + (warnings (finder.log f lower upper)).length ≤ finder.intervals := by
  refine ⟨fun i _ h => ?_, finder.roots_eq_flatMap f lower upper, finder.warnings_log_eq_flatMap f lower upper,
    fun i _ => (finder.part f lower upper i).length_contribution_le, ?_⟩
  · rw [h.part_eq, Verdict.warnings_refined, Verdict.root?]
    cases (finder.refine f lower upper i).outcome with
    | ok r => exact .inl ⟨r, rfl, rfl, rfl⟩
    | error e => exact .inr ⟨e, rfl, rfl, rfl⟩
  · have hlength : (finder.scan f lower upper).length = finder.intervals := by simp [scan_eq]
    exact (Verdict.length_contributions_le (finder.scan f lower upper)).trans_eq hlength

/-- Five iterations are enough in the first of the parts `[-2, 1]`, `[1, 4]` and `[4, 7]` and not in the second, which begins
on the top of the hill. -/
theorem sign_changes_accounted_hill :
    let finder : Finder Float := { standard with intervals := 3, maxIterations := 5 }
    (finder.SignChange hill.eval (-2.0) 7.0 0 ∧ ∃ r, (finder.part hill.eval (-2.0) 7.0 0).root? = some r) ∧
    finder.SignChange hill.eval (-2.0) 7.0 1 ∧ ∃ e, warnings (finder.part hill.eval (-2.0) 7.0 1).events =
      [.skipped 1.0 4.0 e] := by
  intro finder
  have h₀ : finder.SignChange hill.eval (-2.0) 7.0 0 :=
    ⟨⟨by decide +kernel, by decide +kernel⟩, .inl ⟨by decide +kernel, by decide +kernel⟩⟩
  have h₁ : finder.SignChange hill.eval (-2.0) 7.0 1 :=
    ⟨⟨by decide +kernel, by decide +kernel⟩, .inr ⟨by decide +kernel, by decide +kernel⟩⟩
  have hcut : finder.cut (-2.0) 7.0 1 = 1.0 ∧ finder.cut (-2.0) 7.0 2 = 4.0 :=
    ⟨by decide +kernel, by decide +kernel⟩
  have hfound : (finder.part hill.eval (-2.0) 7.0 0).root?.isSome := by decide +kernel
  have hlost : (finder.part hill.eval (-2.0) 7.0 1).root?.isNone := by decide +kernel
  obtain ⟨haccounted, -⟩ := sign_changes_accounted finder hill.eval (-2.0) 7.0
  refine ⟨⟨h₀, ?_⟩, h₁, ?_⟩
  · rcases haccounted 0 (by decide) h₀ with ⟨r, -, hr, -⟩ | ⟨e, -, hr, -⟩
    · exact ⟨r, hr⟩
    · rw [hr] at hfound
      cases hfound
  · rcases haccounted 1 (by decide) h₁ with ⟨r, -, hr, -⟩ | ⟨e, -, -, he⟩
    · rw [hr] at hlost
      cases hlost
    · rw [hcut.1, hcut.2] at he
      exact ⟨e, he⟩

end Finder

end Formula
