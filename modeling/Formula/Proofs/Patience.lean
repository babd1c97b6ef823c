import Formula.Proofs.Zeros

/-!
The bound on the iterations. It ends only a run that has not ended by itself, so what finds a root or diverges does the same
under any larger bound, and with more patience no root is lost.
-/

namespace Formula

variable {α : Type}

/-! ## A run -/

namespace NewtonRun

/-- The run has found a root or has diverged. -/
inductive Ended (run : NewtonRun α) : Prop
  | converged (r : α) : run.outcome = .ok r → run.Ended
  | diverged (x : α) : run.outcome = .error (.diverged x) → run.Ended

theorem ended_of_toOption {run : NewtonRun α} {r : α} (h : run.outcome.toOption = some r) : run.Ended := by
  cases ho : run.outcome with
  | ok s => exact .converged s ho
  | error e =>
    rw [ho] at h
    cases h

variable [Scalar α]

theorem proceed_of_le (f : α → α) (accuracy : α) {n m : Nat} (h : n ≤ m) (index : Nat) (x : α)
    (before : List (Iterate α)) (he : (proceed f accuracy n index x before).Ended) :
    proceed f accuracy m index x before = proceed f accuracy n index x before := by
  -- both runs take the same branches as long as the smaller bound is not used up, which an ended run never does
  induction n generalizing m index x before with
  | zero => obtain ⟨_, h⟩ | ⟨_, h⟩ := he <;> cases h
  | succ n ih =>
    obtain ⟨m, rfl⟩ := Nat.exists_eq_add_of_le' (Nat.one_le_of_lt h)
    simp only [proceed] at he ⊢
    split
    · rfl
    · next hfinite =>
      rw [if_neg hfinite] at he
      split
      · rfl
      · next hclose =>
        rw [if_neg hclose] at he
        exact ih (Nat.le_of_succ_le_succ h) _ _ _ he

end NewtonRun

variable [Scalar α]

theorem newton_of_le (f : α → α) {x₀ accuracy : α} {n m : Nat} (h : n ≤ m) (he : (newton f x₀ accuracy n).Ended) :
    newton f x₀ accuracy m = newton f x₀ accuracy n :=
  NewtonRun.proceed_of_le f accuracy h 0 x₀ [] he

/-! ## A scan -/

/-- What is kept by one function and in the same way by the other comes in the same order. -/
theorem filterMap_sublist {β γ : Type} {g g' : β → Option γ} {l : List β}
    (h : ∀ a ∈ l, ∀ b, g a = some b → g' a = some b) : (l.filterMap g).Sublist (l.filterMap g') := by
  induction l with
  | nil => exact List.Sublist.refl _
  | cons a l ih =>
    have hl := ih fun a ha => h a (List.mem_cons_of_mem _ ha)
    cases hg : g a with
    | none =>
      rw [List.filterMap_cons_none hg]
      cases hg' : g' a with
      | none => rwa [List.filterMap_cons_none hg']
      | some b =>
        rw [List.filterMap_cons_some hg']
        exact hl.cons b
    | some b =>
      rw [List.filterMap_cons_some hg, List.filterMap_cons_some (h a List.mem_cons_self b hg)]
      exact hl.cons_cons b

namespace Finder

/-- The same search with another bound on the iterations. -/
def upTo (finder : Finder α) (n : Nat) : Finder α := { finder with maxIterations := n }

variable (finder : Finder α) (f : α → α) {n m : Nat}

/-- More patience changes only what comes of a run that has not ended. -/
theorem inspect_upTo (h : n ≤ m) (isLast : Bool) (x₁ x₂ : α) :
    (finder.upTo m).inspect f isLast x₁ x₂ = (finder.upTo n).inspect f isLast x₁ x₂ ∨
      ∃ run, (finder.upTo n).inspect f isLast x₁ x₂ = .refined x₁ x₂ run ∧ ¬ run.Ended := by
  by_cases he : (newton f (x₁ + finder.accuracy) finder.accuracy n).Ended
  · left
    simp only [inspect, upTo, newton_of_le f h he]
  · unfold inspect
    dsimp only [upTo]
    split_ifs
    · exact .inl rfl
    · exact .inl rfl
    · exact .inl rfl
    · exact .inl rfl
    · exact .inr ⟨_, rfl, he⟩

theorem part_upTo (h : n ≤ m) (lower upper : α) (i : Nat) :
    (finder.upTo m).part f lower upper i = (finder.upTo n).part f lower upper i ∨
      ∃ x₁ x₂ run, (finder.upTo n).part f lower upper i = .refined x₁ x₂ run ∧ ¬ run.Ended :=
  (finder.inspect_upTo f h (i + 1 == finder.intervals) (finder.cut lower upper i) (finder.cut lower upper (i + 1))).imp_right
    fun ⟨run, hrun⟩ => ⟨_, _, run, hrun⟩

/-- Under a larger bound on the iterations the roots are the same and more, in the same order; a part whose run has found a
root or diverged is refined by the very same run; and under every bound the roots are those of the parts. -/
theorem roots_upTo (h : n ≤ m) (lower upper : α) :
    ((finder.upTo n).roots f lower upper).Sublist ((finder.upTo m).roots f lower upper) ∧
    (∀ i < finder.intervals, ∀ x₁ x₂ run, (finder.upTo n).part f lower upper i = .refined x₁ x₂ run → run.Ended →
      (finder.upTo m).part f lower upper i = .refined x₁ x₂ run) ∧
    ∀ k, (finder.upTo k).roots f lower upper =
      (List.range finder.intervals).flatMap fun i => ((finder.upTo k).part f lower upper i).root?.toList := by
  refine ⟨?_, fun i _ x₁ x₂ run hv he => ?_, fun k => (finder.upTo k).roots_eq_flatMap f lower upper⟩
  · rw [roots, roots, scan_eq, scan_eq, List.filterMap_map, List.filterMap_map]
    refine filterMap_sublist fun i _ r hr => ?_
    rcases finder.part_upTo f h lower upper i with hi | ⟨x₁, x₂, run, hv, he⟩
    · exact (congrArg Verdict.root? hi).trans hr
    · rw [Function.comp, hv] at hr
      exact absurd (NewtonRun.ended_of_toOption hr) he
  · rcases finder.part_upTo f h lower upper i with hi | ⟨_, _, run', hv', he'⟩
    · exact hi.trans hv
    · cases hv.symm.trans hv'
      exact absurd he he'

theorem roots_upTo_hill :
    (2 ≤ 1000 ∧ (({ standard with intervals := 2 } : Finder Float).upTo 2 |>.roots hill.eval (-1.0) 4.0).Sublist
      (({ standard with intervals := 2 } : Finder Float).upTo 1000 |>.roots hill.eval (-1.0) 4.0)) ∧
    6 ≤ 1000 ∧ ∃ x₁ x₂ run,
      (({ standard with intervals := 2 } : Finder Float).upTo 6).part hill.eval (-1.0) 4.0 1 = .refined x₁ x₂ run ∧
      run.Ended ∧
      (({ standard with intervals := 2 } : Finder Float).upTo 1000).part hill.eval (-1.0) 4.0 1 = .refined x₁ x₂ run ∧
      ∃ r ∈ (({ standard with intervals := 2 } : Finder Float).upTo 1000).roots hill.eval (-1.0) 4.0,
        run.outcome.toOption = some r := by
  have hroot : ((({ standard with intervals := 2 } : Finder Float).upTo 6).part hill.eval (-1.0) 4.0 1).root?.isSome := by
    decide +kernel
  obtain ⟨r, hr⟩ := Option.isSome_iff_exists.1 hroot
  obtain ⟨x₁, x₂, run, hv, hrun⟩ := Verdict.refined_of_root? hr (by decide +kernel)
  have he := NewtonRun.ended_of_toOption hrun
  obtain ⟨hfew, -, -⟩ := roots_upTo { standard with intervals := 2 } hill.eval (by omega : 2 ≤ 1000) (-1.0) 4.0
  obtain ⟨hmore, hsame, hparts⟩ :=
    roots_upTo { standard with intervals := 2 } hill.eval (by omega : 6 ≤ 1000) (-1.0) 4.0
  have hfound : r ∈ (({ standard with intervals := 2 } : Finder Float).upTo 6).roots hill.eval (-1.0) 4.0 := by
    rw [hparts, List.mem_flatMap]
    exact ⟨1, by decide, by rw [hr, Option.toList_some, List.mem_singleton]⟩
  exact ⟨⟨by omega, hfew⟩, by omega, x₁, x₂, run, hv, he, hsame 1 (by decide) x₁ x₂ run hv he, r, hmore.subset hfound, hrun⟩

end Finder

end Formula
