import Formula.Proofs.Roots
import Formula.Proofs.Scalar.Exact

/-!
Scanning in two goes. Over exact cuts the parts of an interval are those of its two halves, and they contribute the same
but for one: the last part of the left half also reports a zero in the middle, which in one go is left to the part on its
right.
-/

namespace Formula

open Scalar (ExactField)

variable {α : Type} [Scalar α]

namespace Finder

variable (finder : Finder α) (f : α → α)

/-! ## Verdicts over given cuts -/

/-- The verdicts on the first `n` parts between the cuts, none of which is the last. -/
def inner (x : Nat → α) (n : Nat) : List (Verdict α) :=
  (List.range n).map fun i => finder.inspect f false (x i) (x (i + 1))

/-- The verdicts on `n` parts between the cuts. -/
def verdicts (x : Nat → α) (n : Nat) : List (Verdict α) :=
  (List.range n).map fun i => finder.inspect f (i + 1 == n) (x i) (x (i + 1))

theorem scan_eq_verdicts (lower upper : α) :
    finder.scan f lower upper = finder.verdicts f (finder.cut lower upper) finder.intervals := rfl

theorem inner_succ (x : Nat → α) (n : Nat) :
    finder.inner f x (n + 1) = finder.inner f x n ++ [finder.inspect f false (x n) (x (n + 1))] := by
  simp [inner, List.range_succ]

/-- Of parts in two groups the first has none that is the last. -/
theorem verdicts_add (x : Nat → α) (n : Nat) {m : Nat} (hm : 1 ≤ m) :
    finder.verdicts f x (n + m) = finder.inner f x n ++ finder.verdicts f (fun i => x (n + i)) m := by
  rw [verdicts, List.range_add, List.map_append, List.map_map]
  congr 1
  · refine List.map_congr_left fun i hi => ?_
    have := List.mem_range.1 hi
    rw [beq_false_of_ne (by omega)]
  · refine List.map_congr_left fun i _ => ?_
    have : (n + i + 1 == n + m) = (i + 1 == m) := by
      rw [add_assoc, Bool.eq_iff_iff, beq_iff_eq, beq_iff_eq, Nat.add_left_cancel_iff]
    rw [Function.comp, this]
    rfl

theorem verdicts_succ (x : Nat → α) (n : Nat) :
    finder.verdicts f x (n + 1) = finder.inner f x n ++ [finder.inspect f true (x n) (x (n + 1))] :=
  finder.verdicts_add f x n le_rfl

/-! ## The part before the middle -/

variable {f} {x₁ x₂ : α}

/-- Whether a part is the last one matters only for a zero at its right end behind a value that is not zero. -/
theorem inspect_last (h : f x₁ == 0.0 ∨ (f x₂ == 0.0) = false) :
    finder.inspect f true x₁ x₂ = finder.inspect f false x₁ x₂ := by
  rcases h with h | h <;> simp [inspect, h]

theorem inspect_last_zero (h₁ : (f x₁ == 0.0) = false) (h₂ : f x₂ == 0.0) :
    finder.inspect f true x₁ x₂ = .zero x₂ ∧ finder.inspect f false x₁ x₂ = .quiet := by
  simp [inspect, h₁, h₂]

theorem root?_inspect_last {x₁ x₂ : α} (hne : x₁ ≠ x₂) (h₂ : f x₂ == 0.0) :
    (finder.inspect f true x₁ x₂).root? = some x₂ ↔ (f x₁ == 0.0) = false := by
  cases h₁ : f x₁ == 0.0 with
  | true => simp [inspect, h₁, Verdict.root?, hne]
  | false => simp [(finder.inspect_last_zero h₁ h₂).1, Verdict.root?]

/-- Parts in two groups are told as those of the first group alone and the others, where it does not matter that the first
group ends with a last part. -/
theorem verdicts_split (x : Nat → α) (n : Nat) {m : Nat} (hm : 1 ≤ m)
    (h : f (x n) == 0.0 ∨ (f (x (n + 1)) == 0.0) = false) :
    finder.verdicts f x (n + 1 + m) =
      finder.verdicts f x (n + 1) ++ finder.verdicts f (fun i => x (n + 1 + i)) m := by
  rw [verdicts_add _ _ _ _ hm, verdicts_succ, inner_succ, finder.inspect_last h]

/-- Where it matters, the first group alone tells one zero more. -/
theorem verdicts_split_zero (x : Nat → α) (n : Nat) {m : Nat} (hm : 1 ≤ m) (h₁ : (f (x n) == 0.0) = false)
    (h₂ : f (x (n + 1)) == 0.0) :
    finder.verdicts f x (n + 1) = finder.inner f x n ++ [.zero (x (n + 1))] ∧
      finder.verdicts f x (n + 1 + m) =
        finder.inner f x n ++ [.quiet] ++ finder.verdicts f (fun i => x (n + 1 + i)) m := by
  obtain ⟨hlast, hinner⟩ := finder.inspect_last_zero h₁ h₂
  rw [verdicts_add _ _ _ _ hm, verdicts_succ, inner_succ, hlast, hinner]
  exact ⟨rfl, rfl⟩

end Finder

/-! ## Exact cuts -/

namespace Finder

/-- The same search with `n` parts. -/
def inParts (finder : Finder α) (n : Nat) : Finder α := { finder with intervals := n }

section Cuts

variable {number : ℚ → α} (hx : ExactField number)
include hx

theorem cut_number (finder : Finder α) (hn : finder.intervals ≠ 0) (a b : ℚ) (i : Nat) :
    finder.cut (number a) (number b) i = number (a + i * ((b - a) / finder.intervals)) := by
  rw [cut, gridPoint, hx.sub, hx.ofNat, hx.ofNat, hx.div _ _ (Nat.cast_ne_zero.2 hn), hx.mul, hx.add]

/-- The cuts of an interval of `n` steps. -/
theorem cut_steps (finder : Finder α) {n : Nat} (hn : n ≠ 0) (a d : ℚ) (i : Nat) :
    (finder.inParts n).cut (number a) (number (a + n * d)) i = number (a + i * d) := by
  rw [cut_number hx (finder.inParts n) hn]
  change number (a + i * ((a + n * d - a) / n)) = _
  rw [add_sub_cancel_left, mul_div_cancel_left₀ _ (Nat.cast_ne_zero.2 hn)]

theorem scan_steps (finder : Finder α) (f : α → α) {n : Nat} (hn : n ≠ 0) (a d : ℚ) :
    (finder.inParts n).scan f (number a) (number (a + n * d)) =
      finder.verdicts f (fun i : Nat => number (a + i * d)) n := by
  rw [scan_eq_verdicts, funext (cut_steps hx finder hn a d)]
  rfl

theorem scan_later_steps (finder : Finder α) (f : α → α) (n : Nat) {m : Nat} (hm : m ≠ 0) (a d : ℚ) :
    (finder.inParts m).scan f (number (a + n * d)) (number (a + (n + m : Nat) * d)) =
      finder.verdicts f (fun i : Nat => number (a + (n + i : Nat) * d)) m := by
  have hshift (i : Nat) : a + (n + i : Nat) * d = a + n * d + i * d := by
    rw [Nat.cast_add, add_mul, add_assoc]
  simp only [hshift]
  exact scan_steps hx finder f hm (a + n * d) d

theorem part_last_step (finder : Finder α) (f : α → α) (n : Nat) (a d : ℚ) :
    (finder.inParts (n + 1)).part f (number a) (number (a + (n + 1 : Nat) * d)) n =
      finder.inspect f true (number (a + n * d)) (number (a + (n + 1 : Nat) * d)) := by
  rw [part, cut_steps hx finder n.succ_ne_zero, cut_steps hx finder n.succ_ne_zero]
  change finder.inspect f (n + 1 == n + 1) _ _ = _
  rw [beq_self_eq_true]

/-- The roots of an interval in `n + m` parts are those of its first `n` parts and those of the others; a zero in the middle
is told once, and if the last of the first parts tells it, then not by that one. -/
theorem roots_split (finder : Finder α) (f : α → α) {lower upper mid : ℚ} (hlt : lower < upper) {n m : Nat}
    (hn : 1 ≤ n) (hm : 1 ≤ m) (hmid : mid = lower + n * ((upper - lower) / (n + m : Nat))) :
    ((f (number mid) == 0.0) = false →
      (finder.inParts (n + m)).roots f (number lower) (number upper) =
        (finder.inParts n).roots f (number lower) (number mid) ++
          (finder.inParts m).roots f (number mid) (number upper)) ∧
    (f (number mid) == 0.0 →
      (((finder.inParts n).part f (number lower) (number mid) (n - 1)).root? = some (number mid) →
        ∃ before, (finder.inParts n).roots f (number lower) (number mid) = before ++ [number mid] ∧
          (finder.inParts (n + m)).roots f (number lower) (number upper) =
            before ++ (finder.inParts m).roots f (number mid) (number upper)) ∧
      (((finder.inParts n).part f (number lower) (number mid) (n - 1)).root? ≠ some (number mid) →
        (finder.inParts (n + m)).roots f (number lower) (number upper) =
          (finder.inParts n).roots f (number lower) (number mid) ++
            (finder.inParts m).roots f (number mid) (number upper))) := by
  obtain ⟨k, rfl⟩ := Nat.exists_eq_add_of_le' hn
  generalize hd : (upper - lower) / (k + 1 + m : Nat) = d at hmid
  have hdpos : 0 < d := hd ▸ div_pos (sub_pos.2 hlt) (Nat.cast_pos.2 (by omega))
  obtain rfl : upper = lower + (k + 1 + m : Nat) * d := by
    rw [← hd, mul_div_cancel₀ _ (Nat.cast_ne_zero.2 (by omega)), add_sub_cancel]
  subst hmid
  have hne : number (lower + k * d) ≠ number (lower + (k + 1 : Nat) * d) := fun h => by
    have := hx.injective h
    push_cast at this
    linarith
  -- all three are scans over the steps from `lower` on
  rw [roots, roots, roots, scan_steps hx finder f (by omega), scan_steps hx finder f (by omega),
    scan_later_steps hx finder f _ (by omega), Nat.add_sub_cancel, part_last_step hx]
  refine ⟨fun h => ?_, fun h => ⟨fun hlast => ?_, fun hlast => ?_⟩⟩
  · rw [verdicts_split finder (fun i : Nat => number (lower + i * d)) k hm (.inr h), List.filterMap_append]
  · have h₁ := (finder.root?_inspect_last hne h).1 hlast
    obtain ⟨hfirst, hwhole⟩ := verdicts_split_zero finder (fun i : Nat => number (lower + i * d)) k hm h₁ h
    refine ⟨(finder.inner f (fun i : Nat => number (lower + i * d)) k).filterMap Verdict.root?, ?_, ?_⟩
    · rw [hfirst, List.filterMap_append]
      rfl
    · rw [hwhole, List.filterMap_append, List.filterMap_append]
      exact congrArg (· ++ _) (List.append_nil _)
  · have h₁ := (finder.root?_inspect_last hne h).not.1 hlast
    rw [Bool.not_eq_false] at h₁
    rw [verdicts_split finder (fun i : Nat => number (lower + i * d)) k hm (.inl h₁), List.filterMap_append]

end Cuts

open Extended in
theorem roots_split_identity :
    (-2 : ℚ) < 2 ∧ (0 : ℚ) = -2 + (2 : Nat) * ((2 - -2) / (2 + 2 : Nat)) ∧
    ∃ before,
      (standard.inParts 2).roots (Sequence.eval [.var .independent]) (number (-2)) (number 0) = before ++ [number 0] ∧
      (standard.inParts (2 + 2)).roots (Sequence.eval [.var .independent]) (number (-2)) (number 2) =
        before ++ (standard.inParts 2).roots (Sequence.eval [.var .independent]) (number 0) (number 2) := by
  have hlt : (-2 : ℚ) < 2 := by norm_num
  have hmid : (0 : ℚ) = -2 + (2 : Nat) * ((2 - -2) / (2 + 2 : Nat)) := by norm_num
  have hsplit := roots_split Extended.exact.toExactField standard (Sequence.eval [.var .independent]) hlt one_le_two
    one_le_two hmid
  exact ⟨hlt, hmid, (hsplit.2 (by decide +kernel)).1 (by decide +kernel)⟩

end Finder

end Formula
