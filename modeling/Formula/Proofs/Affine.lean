import Formula.Proofs.Grid

/-!
Straight lines. In exact arithmetic the central difference is the slope itself, so Newton's iteration comes to the zero in
one step and stops there in the next; and each place of the interval belongs to one part, so the zero is told once.
-/

namespace Formula

open Scalar (Exact)

variable {α : Type} [Scalar α] {number : ℚ → α} {f : α → α} {c d : ℚ}

/-- On the numbers `f` is the line `c * x + d`. -/
structure Affine (number : ℚ → α) (f : α → α) (c d : ℚ) : Prop where
  slope_ne_zero : c ≠ 0
  eq : ∀ x, f (number x) = number (c * x + d)

namespace Affine

variable (hx : Exact number) (hf : Affine number f c d)
include hx hf

/-! ## The iteration -/

theorem centralSlope_eq {ε : ℚ} (hε : ε ≠ 0) (x : ℚ) : centralSlope f (number ε) (number x) = number c := by
  have hc : (c * (x + ε) + d - (c * (x - ε) + d)) / (2 * ε) = c := by
    field_simp
    ring
  rw [centralSlope, hx.add, hx.sub, hf.eq, hf.eq, hx.sub, hx.two, hx.mul, hx.div _ _ (mul_ne_zero two_ne_zero hε), hc]

/-- Every iterate goes to the zero. -/
theorem iterate_of {ε : ℚ} (hε : ε ≠ 0) (k : Nat) (x : ℚ) :
    Iterate.of f (number ε) k (number x) = ⟨k, number x, number c, number (-d / c)⟩ := by
  have hstep : x - (c * x + d) / c = -d / c := by
    have := hf.slope_ne_zero
    field_simp
    ring
  simp only [Iterate.of, hf.centralSlope_eq hx hε, hf.eq, hx.div _ _ hf.slope_ne_zero, hx.sub, hstep]

theorem proceed_eq {ε : ℚ} (hε : ε ≠ 0) (left k : Nat) (x : ℚ) (before : List (Iterate α)) :
    NewtonRun.proceed f (number ε) (left + 1) k (number x) before =
      if |-d / c - x| ≤ ε then
        ⟨(⟨k, number x, number c, number (-d / c)⟩ :: before).reverse, .ok (number (-d / c))⟩
      else NewtonRun.proceed f (number ε) left (k + 1) (number (-d / c))
        (⟨k, number x, number c, number (-d / c)⟩ :: before) := by
  simp only [NewtonRun.proceed, hf.iterate_of hx hε, hx.isFinite, hx.sub, hx.abs, hx.le, Bool.not_true,
    Bool.false_eq_true, if_false]

theorem outcome_newton {ε : ℚ} (hε : 0 < ε) (x : ℚ) {n : Nat} (hn : 2 ≤ n) :
    (newton f (number x) (number ε) n).outcome = .ok (number (-d / c)) := by
  obtain ⟨n, rfl⟩ := Nat.exists_eq_add_of_le' hn
  rw [newton, hf.proceed_eq hx hε.ne']
  split
  · rfl
  · rw [hf.proceed_eq hx hε.ne', if_pos (by simpa using hε.le)]

/-! ## The parts -/

theorem beq_zero_iff (x : ℚ) : f (number x) == 0.0 ↔ x = -d / c := by
  rw [hf.eq, hx.zero, hx.beq, eq_div_iff hf.slope_ne_zero, eq_neg_iff_add_eq_zero, mul_comm]

theorem zero_lt_mul_iff (x y : ℚ) :
    0.0 < f (number x) * f (number y) ↔ 0 < (x - -d / c) * (y - -d / c) := by
  have hfactor : (c * x + d) * (c * y + d) = c ^ 2 * ((x - -d / c) * (y - -d / c)) := by
    have := hf.slope_ne_zero
    field_simp
    ring
  rw [hf.eq, hf.eq, hx.mul, hx.zero, hx.lt, hfactor, mul_pos_iff_of_pos_left (by have := hf.slope_ne_zero; positivity)]

/-- A part tells the zero if it lies there, at the left end too, and at the right end if the part is the last. -/
theorem root?_inspect {finder : Finder α} {ε : ℚ} (hacc : finder.accuracy = number ε) (hε : 0 < ε)
    (hmax : 2 ≤ finder.maxIterations) (isLast : Bool) {x₁ x₂ : ℚ} (hlt : x₁ < x₂) :
    (finder.inspect f isLast (number x₁) (number x₂)).root? =
      if x₁ ≤ -d / c ∧ (-d / c < x₂ ∨ isLast ∧ -d / c = x₂) then some (number (-d / c)) else none := by
  have hp := finder.inspected f isLast (number x₁) (number x₂)
  generalize finder.inspect f isLast (number x₁) (number x₂) = v at hp ⊢
  cases hp with
  | left h₁ =>
    obtain rfl := (hf.beq_zero_iff hx x₁).1 h₁
    rw [if_pos ⟨le_rfl, .inl hlt⟩, Verdict.root?]
  | last _ h₂ hl =>
    obtain rfl := (hf.beq_zero_iff hx x₂).1 h₂
    rw [if_pos ⟨hlt.le, .inr ⟨hl, rfl⟩⟩, Verdict.root?]
  | next _ h₂ hl =>
    obtain rfl := (hf.beq_zero_iff hx x₂).1 h₂
    rw [if_neg (by simp [hl]), Verdict.root?]
  | quiet h₁ h₂ hq =>
    simp only [hf.eq, hx.isFinite, Bool.true_eq_false, false_or] at hq
    rw [← hf.eq, ← hf.eq, hf.zero_lt_mul_iff hx] at hq
    rw [← Bool.not_eq_true, hf.beq_zero_iff hx] at h₁ h₂
    rw [if_neg, Verdict.root?]
    rintro ⟨hle, hr | ⟨-, hr⟩⟩
    · exact hq.not_ge (mul_nonpos_of_nonpos_of_nonneg (sub_nonpos.2 hle) (sub_nonneg.2 hr.le))
    · exact h₂ hr.symm
  | refined h₁ h₂ _ _ hq =>
    -- a line that changes its sign between the ends has its zero there
    rw [hf.zero_lt_mul_iff hx, not_lt] at hq
    rw [← Bool.not_eq_true, hf.beq_zero_iff hx] at h₁ h₂
    have hmem : x₁ ≤ -d / c ∧ -d / c < x₂ := by
      rcases mul_nonpos_iff.1 hq with ⟨hl, hr⟩ | ⟨hl, hr⟩
      · exact absurd hlt (not_lt.2 ((sub_nonpos.1 hr).trans (sub_nonneg.1 hl)))
      · exact ⟨sub_nonpos.1 hl, lt_of_le_of_ne (sub_nonneg.1 hr) (Ne.symm h₂)⟩
    rw [if_pos ⟨hmem.1, .inl hmem.2⟩, Verdict.root?, hacc, hx.add, hf.outcome_newton hx hε _ hmax]
    rfl

end Affine

/-! ## The interval -/

theorem filterMap_range_eq_singleton {β : Type} {g : Nat → Option β} {n k : Nat} (hk : k < n) {v : β} (hv : g k = some v)
    (hne : ∀ i < n, i ≠ k → g i = none) : (List.range n).filterMap g = [v] := by
  obtain ⟨m, rfl⟩ := Nat.exists_eq_add_of_le hk
  have hbefore : (List.range k).filterMap g = [] := List.filterMap_eq_nil_iff.2 fun i hi => by
    have := List.mem_range.1 hi
    exact hne i (by omega) (by omega)
  have hbehind : ((List.range m).map (k + 1 + ·)).filterMap g = [] := List.filterMap_eq_nil_iff.2 fun i hi => by
    obtain ⟨j, hj, rfl⟩ := List.mem_map.1 hi
    have := List.mem_range.1 hj
    exact hne _ (by omega) (by omega)
  rw [List.range_add, List.range_succ, List.filterMap_append, List.filterMap_append, hbefore, hbehind]
  simp [hv]

/-- Of an interval of `n` steps the `i`-th is where `r` lies: the end of the interval belongs to the last step. -/
def InStep (a d : ℚ) (n : Nat) (r : ℚ) (i : Nat) : Prop :=
  a + i * d ≤ r ∧ (r < a + (i + 1 : Nat) * d ∨ i + 1 = n ∧ r = a + (i + 1 : Nat) * d)

namespace InStep

variable {a d r : ℚ} {n i j : Nat}

instance : Decidable (InStep a d n r i) := inferInstanceAs (Decidable (_ ∧ _))

theorem mem (hd : 0 < d) (hi : i < n) (h : InStep a d n r i) : a ≤ r ∧ r ≤ a + n * d := by
  have hstep : ((i + 1 : Nat) : ℚ) * d ≤ n * d := by gcongr; omega
  have hpos : 0 ≤ (i : ℚ) * d := by positivity
  obtain ⟨hl, hu | ⟨-, hu⟩⟩ := h
  · exact ⟨by linarith, by linarith⟩
  · exact ⟨by linarith, by linarith⟩

theorem not_lt (hd : 0 < d) (hj : j < n) (h : InStep a d n r i) (h' : InStep a d n r j) : ¬ i < j := fun hij => by
  have hstep : ((i + 1 : Nat) : ℚ) * d ≤ j * d := by gcongr; omega
  obtain ⟨-, hu | ⟨hlast, -⟩⟩ := h
  · linarith [h'.1]
  · omega

theorem eq (hd : 0 < d) (hi : i < n) (hj : j < n) (h : InStep a d n r i) (h' : InStep a d n r j) : i = j := by
  have := h.not_lt hd hj h'
  have := h'.not_lt hd hi h
  omega

theorem exists_of_mem (hd : 0 < d) (hn : 1 ≤ n) (hl : a ≤ r) (hu : r ≤ a + n * d) : ∃ i < n, InStep a d n r i := by
  rcases hu.lt_or_eq with hu | rfl
  · have hpos : 0 ≤ (r - a) / d := div_nonneg (sub_nonneg.2 hl) hd.le
    have hlt : (r - a) / d < n := (div_lt_iff₀ hd).2 (by linarith)
    have hfloor := (le_div_iff₀ hd).1 (Nat.floor_le hpos)
    have hnext := (div_lt_iff₀ hd).1 (Nat.lt_floor_add_one ((r - a) / d))
    refine ⟨⌊(r - a) / d⌋₊, (Nat.floor_lt hpos).2 hlt, by linarith, .inl ?_⟩
    push_cast
    linarith
  · obtain ⟨m, rfl⟩ := Nat.exists_eq_add_of_le' hn
    refine ⟨m, m.lt_succ_self, ?_, .inr ⟨rfl, rfl⟩⟩
    push_cast
    linarith

end InStep

theorem Affine.root?_part (hx : Exact number) (hf : Affine number f c d) {finder : Finder α} {a s ε : ℚ} (hs : 0 < s)
    (hn : finder.intervals ≠ 0) (hacc : finder.accuracy = number ε) (hε : 0 < ε) (hmax : 2 ≤ finder.maxIterations)
    (i : Nat) : (finder.part f (number a) (number (a + finder.intervals * s)) i).root? =
      if InStep a s finder.intervals (-d / c) i then some (number (-d / c)) else none := by
  have hcut := finder.cut_steps hx.toExactField hn a s
  have hlt : a + i * s < a + (i + 1 : Nat) * s := by
    push_cast
    linarith
  change ∀ i, finder.cut (number a) (number (a + finder.intervals * s)) i = number (a + i * s) at hcut
  rw [Finder.part, hcut, hcut, hf.root?_inspect hx hacc hε hmax _ hlt]
  simp only [beq_iff_eq]
  rfl

/-- The zero of a line is found, and once, wherever it lies in the interval, and nothing is found if it lies outside. -/
theorem Finder.roots_affine (hx : Exact number) (hf : Affine number f c d) {finder : Finder α} {lower upper ε : ℚ}
    (hlt : lower < upper) (hn : 1 ≤ finder.intervals) (hacc : finder.accuracy = number ε) (hε : 0 < ε)
    (hmax : 2 ≤ finder.maxIterations) : finder.roots f (number lower) (number upper) =
      if lower ≤ -d / c ∧ -d / c ≤ upper then [number (-d / c)] else [] := by
  generalize hs : (upper - lower) / finder.intervals = s
  have hspos : 0 < s := hs ▸ div_pos (sub_pos.2 hlt) (Nat.cast_pos.2 hn)
  obtain rfl : upper = lower + finder.intervals * s := by
    rw [← hs, mul_div_cancel₀ _ (Nat.cast_ne_zero.2 (by omega)), add_sub_cancel]
  have hpart (i : Nat) : (finder.part f (number lower) (number (lower + finder.intervals * s)) i).root? =
      if InStep lower s finder.intervals (-d / c) i then some (number (-d / c)) else none :=
    hf.root?_part hx hspos (by omega) hacc hε hmax i
  rw [roots, scan_eq, List.filterMap_map]
  split
  · next hr =>
    obtain ⟨k, hk, hmem⟩ := InStep.exists_of_mem hspos hn hr.1 hr.2
    refine filterMap_range_eq_singleton hk ((hpart k).trans (if_pos hmem)) fun i hi hne => ?_
    exact (hpart i).trans (if_neg fun h => hne (h.eq hspos hi hk hmem))
  · next hr =>
    refine List.filterMap_eq_nil_iff.2 fun i hi => ?_
    exact (hpart i).trans (if_neg fun h => hr (h.mem hspos (List.mem_range.1 hi)))

/-- `2 * x - 1` -/
def slope : Sequence Extended :=
  [.number (.number 2), .var .independent, .op .mul, .number (.number 1), .op .sub]

theorem affine_slope : Affine .number slope.eval 2 (-1) :=
  ⟨two_ne_zero, fun _ => rfl⟩

theorem Finder.roots_affine_slope : (-1 : ℚ) < 2 ∧
    ({ standard with intervals := 3 } : Finder Extended).roots slope.eval (.number (-1)) (.number 2) =
      [.number (1 / 2)] := by
  have hlt : (-1 : ℚ) < 2 := by norm_num
  have hε : (0 : ℚ) < 1.0e-5 := by norm_num
  refine ⟨hlt, ?_⟩
  rw [roots_affine Extended.exact affine_slope hlt (by decide) rfl hε (by decide)]
  norm_num

end Formula
