import Formula.Area
import Formula.Proofs.Scalar.Exact

/-!
The area in exact arithmetic. It is a weighted sum of samples, and the weights are such that it is the area of trapezoids
between neighbouring samples; from the other end the same samples come in reverse, with the same weights.
-/

namespace Formula

open Scalar (ExactField Complete)

variable {α : Type} [Scalar α]

/-! ## The sum -/

/-- The sum fails at a sample that is not a number and at nothing else. -/
theorem sumSamples_eq_none_iff (sample : Nat → α) (steps left index : Nat) (sum : α) :
    sumSamples sample steps left index sum = none ↔
      ∃ i, index ≤ i ∧ i < index + left ∧ Scalar.isNaN (sample i) := by
  induction left generalizing index sum with
  | zero =>
    refine ⟨nofun, ?_⟩
    rintro ⟨i, hl, hu, -⟩
    omega
  | succ left ih =>
    have hrest : (∃ i, index ≤ i ∧ i < index + (left + 1) ∧ Scalar.isNaN (sample i)) ↔
        Scalar.isNaN (sample index) ∨ ∃ i, index + 1 ≤ i ∧ i < index + 1 + left ∧ Scalar.isNaN (sample i) := by
      constructor
      · rintro ⟨i, hl, hu, hi⟩
        rcases hl.eq_or_lt with rfl | hl
        · exact .inl hi
        · exact .inr ⟨i, hl, by omega, hi⟩
      · rintro (hi | ⟨i, hl, hu, hi⟩)
        · exact ⟨index, le_rfl, by omega, hi⟩
        · exact ⟨i, by omega, by omega, hi⟩
    rw [hrest]
    unfold sumSamples
    dsimp only
    split
    · next hnan => exact iff_of_true rfl (.inl hnan)
    · next hnan =>
      rw [or_iff_right hnan]
      split
      · exact ih _ _
      · exact ih _ _

/-- Of the samples `0, …, n` both ends count by halves. -/
def weight (n i : Nat) : ℚ := if i = 0 ∨ i = n then 1 / 2 else 1

theorem weight_sub {n i : Nat} (hi : i ≤ n) : weight n (n - i) = weight n i := by
  have h : (n - i = 0 ∨ n - i = n) ↔ (i = 0 ∨ i = n) := by omega
  simp only [weight, h]

/-- What a finite number stands for; an infinite one counts zero. -/
noncomputable def counted (number : ℚ → α) (v : α) : ℚ := if Scalar.isFinite v then Function.invFun number v else 0

section Sum

variable {number : ℚ → α} (hx : Complete number)
include hx

theorem counted_number (q : ℚ) : counted number (number q) = q := by
  rw [counted, if_pos (hx.isFinite q), Function.leftInverse_invFun hx.injective]

omit hx in
theorem counted_of_not_isFinite {v : α} (hv : Scalar.isFinite v = false) : counted number v = 0 := by
  rw [counted, hv, if_neg Bool.false_ne_true]

theorem number_weight (n i : Nat) : (if i = 0 ∨ i = n then 0.5 else 1.0 : α) = number (weight n i) := by
  unfold weight
  split
  · exact hx.half
  · exact hx.one

theorem sumSamples_eq (sample : Nat → α) (steps left index : Nat) (sum : ℚ)
    (h : ∀ i, index ≤ i → i < index + left → Scalar.isNaN (sample i) = false) :
    sumSamples sample steps left index (number sum) =
      some (number (sum + ∑ i ∈ Finset.range left, weight steps (index + i) * counted number (sample (index + i)))) := by
  induction left generalizing index sum with
  | zero => simp [sumSamples]
  | succ left ih =>
    have hnan := h index le_rfl (by omega)
    have hrest := fun s => ih (index + 1) s fun i hl hu => h i (by omega) (by omega)
    have hshift : ∑ i ∈ Finset.range left, weight steps (index + (i + 1)) * counted number (sample (index + (i + 1))) =
        ∑ i ∈ Finset.range left, weight steps (index + 1 + i) * counted number (sample (index + 1 + i)) :=
      Finset.sum_congr rfl fun i _ => by rw [add_right_comm, add_assoc]
    rw [Finset.sum_range_succ', add_zero, hshift]
    unfold sumSamples
    dsimp only
    rw [hnan, if_neg Bool.false_ne_true]
    cases hfin : Scalar.isFinite (sample index) with
    | false =>
      have hinf : Scalar.isInfinite (sample index) := by simp [Scalar.isInfinite, hfin, hnan]
      rw [if_pos hinf, hrest, counted_of_not_isFinite hfin, mul_zero, add_zero]
    | true =>
      have hinf : ¬ Scalar.isInfinite (sample index) := by simp [Scalar.isInfinite, hfin]
      obtain ⟨q, hq⟩ := hx.exists_number _ hfin
      rw [if_neg hinf, hq, counted_number hx, number_weight hx, hx.mul, hx.add, hrest]
      congr 2
      ring

end Sum

/-- With both ends counted by halves the samples add up to the means of neighbours. -/
theorem sum_weight (h : Nat → ℚ) {n : Nat} (hn : 1 ≤ n) :
    ∑ i ∈ Finset.range (n + 1), weight n i * h i = ∑ i ∈ Finset.range n, (h i + h (i + 1)) / 2 := by
  obtain ⟨m, rfl⟩ := Nat.exists_eq_add_of_le' hn
  have hinner : ∀ i ∈ Finset.range m, weight (m + 1) (i + 1) * h (i + 1) = h (i + 1) := by
    intro i hi
    have := Finset.mem_range.1 hi
    rw [weight, if_neg (by omega), one_mul]
  -- left the ends stand apart, right every inner sample comes once as a right and once as a left neighbour
  rw [Finset.sum_range_succ, Finset.sum_range_succ', Finset.sum_congr rfl hinner, ← Finset.sum_div,
    Finset.sum_add_distrib, Finset.sum_range_succ' h, Finset.sum_range_succ fun i => h (i + 1)]
  simp only [weight, true_or, or_true, if_true]
  ring

/-- The same sum from the other end. -/
theorem sum_weight_reverse (h : Nat → ℚ) (n : Nat) :
    ∑ i ∈ Finset.range (n + 1), weight n i * h (n - i) = ∑ i ∈ Finset.range (n + 1), weight n i * h i := by
  rw [← Finset.sum_range_reflect fun i => weight n i * h i]
  refine Finset.sum_congr rfl fun i hi => ?_
  have := Finset.mem_range.1 hi
  rw [Nat.add_sub_cancel, weight_sub (by omega)]

/-! ## The area -/

/-- How high a graph is; a pole counts zero. -/
noncomputable def ordinate (number : ℚ → α) (f : α → α) (x : ℚ) : ℚ := counted number (f (number x))

/-- The trapezoid over the `i`-th step of width `d` from `a` on. -/
def panel (h : ℚ → ℚ) (a d : ℚ) (i : Nat) : ℚ := d * (h (a + i * d) + h (a + (i + 1 : Nat) * d)) / 2

theorem panel_add (h : ℚ → ℚ) (a d : ℚ) (n i : Nat) : panel h a d (n + i) = panel h (a + n * d) d i := by
  have hshift (i : Nat) : a + (n + i : Nat) * d = a + n * d + i * d := by
    rw [Nat.cast_add, add_mul, add_assoc]
  rw [panel, panel, add_assoc n, hshift, hshift]

/-- Under a straight line the trapezoids add up without an error. -/
theorem sum_panel_affine (c e a d : ℚ) (n : Nat) :
    ∑ i ∈ Finset.range n, panel (fun x => c * x + e) a d i =
      c * ((a + n * d) ^ 2 - a ^ 2) / 2 + e * (a + n * d - a) := by
  induction n with
  | zero => simp
  | succ n ih =>
    rw [Finset.sum_range_succ, ih, panel]
    push_cast
    ring

theorem integral_affine (c e a b : ℚ) :
    ∫ x in (a : ℝ)..b, (c * x + e : ℝ) = (c * (b ^ 2 - a ^ 2) / 2 + e * (b - a) : ℚ) := by
  have hline : Continuous fun x : ℝ => c * x := continuous_const_mul (c : ℝ)
  rw [intervalIntegral.integral_add (hline.intervalIntegrable a b) intervalIntegrable_const,
    intervalIntegral.integral_const_mul, integral_id, intervalIntegral.integral_const]
  push_cast
  rw [smul_eq_mul]
  ring

/-- Both parts of an interval take the sample between them. -/
theorem exists_sample_add {P : Nat → Prop} (n m : Nat) :
    (∃ i ≤ n + m, P i) ↔ (∃ i ≤ n, P i) ∨ ∃ i ≤ m, P (n + i) := by
  constructor
  · rintro ⟨i, hi, h⟩
    rcases le_total i n with hin | hni
    · exact .inl ⟨i, hin, h⟩
    · obtain ⟨j, rfl⟩ := Nat.exists_eq_add_of_le hni
      exact .inr ⟨j, by omega, h⟩
  · rintro (⟨i, hi, h⟩ | ⟨i, hi, h⟩)
    · exact ⟨i, by omega, h⟩
    · exact ⟨n + i, by omega, h⟩

/-- The points `0, …, n` are visited in reverse from the other end. -/
theorem reverse_step (a d : ℚ) {n i : Nat} (hi : i ≤ n) : a + n * d + i * -d = a + (n - i : Nat) * d := by
  rw [Nat.cast_sub hi]
  ring

section Area

variable {number : ℚ → α} (hx : Complete number) (f : α → α)
include hx

/-- The step between two samples. -/
theorem step_number {n : Nat} (hn : n ≠ 0) (a d : ℚ) :
    (number (a + n * d) - number a) / Scalar.ofNat n = number d := by
  have hn : (n : ℚ) ≠ 0 := Nat.cast_ne_zero.2 hn
  rw [hx.sub, hx.ofNat, hx.div _ _ hn, add_sub_cancel_left, mul_div_cancel_left₀ _ hn]

theorem gridPoint_number (a d : ℚ) (i : Nat) : gridPoint (number a) (number d) i = number (a + i * d) := by
  rw [gridPoint, hx.ofNat, hx.mul, hx.add]

theorem area_steps {n : Nat} (hn : n ≠ 0) (a : ℚ) {d : ℚ} (hd : d ≠ 0) :
    area f (number a) (number (a + n * d)) n =
      (sumSamples (fun i => f (number (a + i * d))) n (n + 1) 0 (number 0)).elim Scalar.nan (· * number d) := by
  have hne : (n : ℚ) * d ≠ 0 := mul_ne_zero (Nat.cast_ne_zero.2 hn) hd
  have hbeq : (number a == number (a + n * d)) = false := by
    rw [← Bool.not_eq_true, hx.beq]
    exact fun h => hne (left_eq_add.1 h)
  rw [area, hbeq, decide_eq_false hn, Bool.or_false, if_neg Bool.false_ne_true, step_number hx hn, hx.zero]
  simp only [gridPoint_number hx]
  cases sumSamples (fun i => f (number (a + i * d))) n (n + 1) 0 (number 0) with
  | none => rfl
  | some sum => rfl

theorem area_of_undefined {n : Nat} (hn : n ≠ 0) (a : ℚ) {d : ℚ} (hd : d ≠ 0)
    (h : ∃ i ≤ n, Scalar.isNaN (f (number (a + i * d)))) : area f (number a) (number (a + n * d)) n = Scalar.nan := by
  obtain ⟨i, hi, hnan⟩ := h
  rw [area_steps hx f hn a hd, (sumSamples_eq_none_iff _ n (n + 1) 0 _).2 ⟨i, Nat.zero_le i, by omega, hnan⟩,
    Option.elim_none]

theorem area_of_defined {n : Nat} (hn : n ≠ 0) (a : ℚ) {d : ℚ} (hd : d ≠ 0)
    (h : ∀ i ≤ n, Scalar.isNaN (f (number (a + i * d))) = false) :
    area f (number a) (number (a + n * d)) n =
      number ((∑ i ∈ Finset.range (n + 1), weight n i * ordinate number f (a + i * d)) * d) := by
  have hsum := sumSamples_eq hx (fun i => f (number (a + i * d))) n (n + 1) 0 0 fun i _ hi => h i (by omega)
  simp only [zero_add] at hsum
  rw [area_steps hx f hn a hd, hsum]
  exact hx.mul _ _

theorem area_eq_sum_panel {n : Nat} (hn : n ≠ 0) (a : ℚ) {d : ℚ} (hd : d ≠ 0)
    (h : ∀ i ≤ n, Scalar.isNaN (f (number (a + i * d))) = false) :
    area f (number a) (number (a + n * d)) n = number (∑ i ∈ Finset.range n, panel (ordinate number f) a d i) := by
  rw [area_of_defined hx f hn a hd h, sum_weight (fun i : Nat => ordinate number f (a + i * d)) (Nat.pos_of_ne_zero hn),
    Finset.sum_mul]
  congr 1
  refine Finset.sum_congr rfl fun i _ => ?_
  rw [panel]
  ring

theorem isNaN_area {n : Nat} (hn : n ≠ 0) (a : ℚ) {d : ℚ} (hd : d ≠ 0) :
    Scalar.isNaN (area f (number a) (number (a + n * d)) n) ↔ ∃ i ≤ n, Scalar.isNaN (f (number (a + i * d))) := by
  by_cases h : ∃ i ≤ n, Scalar.isNaN (f (number (a + i * d)))
  · rw [area_of_undefined hx f hn a hd h]
    exact iff_of_true hx.isNaN_nan h
  · refine iff_of_false ?_ h
    rw [area_of_defined hx f hn a hd fun i hi => Bool.eq_false_of_not_eq_true fun hnan => h ⟨i, hi, hnan⟩, hx.isNaN]
    exact Bool.false_ne_true

theorem not_isNaN_sample {n : Nat} (hn : n ≠ 0) (a : ℚ) {d : ℚ} (hd : d ≠ 0)
    (h : Scalar.isNaN (area f (number a) (number (a + n * d)) n) = false) :
    ∀ i ≤ n, Scalar.isNaN (f (number (a + i * d))) = false := by
  intro i hi
  by_contra hnan
  have := (isNaN_area hx f hn a hd).2 ⟨i, hi, Bool.eq_true_of_not_eq_false hnan⟩
  rw [h] at this
  cases this

theorem isNaN_area_add {n m : Nat} (hn : n ≠ 0) (hm : m ≠ 0) (a : ℚ) {d : ℚ} (hd : d ≠ 0) :
    Scalar.isNaN (area f (number a) (number (a + (n + m : Nat) * d)) (n + m)) ↔
      Scalar.isNaN (area f (number a) (number (a + n * d)) n) ∨
        Scalar.isNaN (area f (number (a + n * d)) (number (a + n * d + m * d)) m) := by
  have hshift (i : Nat) : a + (n + i : Nat) * d = a + n * d + i * d := by
    rw [Nat.cast_add, add_mul, add_assoc]
  rw [isNaN_area hx f (by omega) a hd, isNaN_area hx f hn a hd, isNaN_area hx f hm (a + n * d) hd, exists_sample_add]
  simp only [hshift]

theorem area_add {n m : Nat} (hn : n ≠ 0) (hm : m ≠ 0) (a : ℚ) {d : ℚ} (hd : d ≠ 0)
    (hnan : Scalar.isNaN (area f (number a) (number (a + (n + m : Nat) * d)) (n + m)) = false) :
    area f (number a) (number (a + (n + m : Nat) * d)) (n + m) =
      area f (number a) (number (a + n * d)) n + area f (number (a + n * d)) (number (a + n * d + m * d)) m := by
  have h := not_isNaN_sample hx f (by omega) a hd hnan
  have hright : ∀ i ≤ m, Scalar.isNaN (f (number (a + n * d + i * d))) = false := by
    intro i hi
    rw [add_assoc, ← add_mul, ← Nat.cast_add]
    exact h (n + i) (by omega)
  rw [area_eq_sum_panel hx f (by omega) a hd h, area_eq_sum_panel hx f hn a hd fun i hi => h i (by omega),
    area_eq_sum_panel hx f hm (a + n * d) hd hright, hx.add, Finset.sum_range_add]
  simp only [panel_add]

variable {a b : ℚ}

/-- Where no sample is missing, the area is that of the trapezoids between neighbouring samples. It has no error under a
straight line, and that of two parts of an interval adds up. -/
theorem area_trapezoids (hab : a ≠ b) {n : Nat} (hn : 1 ≤ n) :
    (Scalar.isNaN (area f (number a) (number b) n) ↔
      ∃ i ≤ n, Scalar.isNaN (f (number (a + i * ((b - a) / n))))) ∧
    ((∀ i ≤ n, Scalar.isNaN (f (number (a + i * ((b - a) / n)))) = false) →
      area f (number a) (number b) n =
        number (∑ i ∈ Finset.range n, panel (ordinate number f) a ((b - a) / n) i)) ∧
    (∀ c e : ℚ, (∀ x, f (number x) = number (c * x + e)) →
      ∃ q : ℚ, area f (number a) (number b) n = number q ∧ (q : ℝ) = ∫ x in (a : ℝ)..b, (c * x + e : ℝ)) ∧
    ∀ m mid, 1 ≤ m → mid = a + n * ((b - a) / (n + m : Nat)) →
      (Scalar.isNaN (area f (number a) (number b) (n + m)) ↔
        Scalar.isNaN (area f (number a) (number mid) n) ∨ Scalar.isNaN (area f (number mid) (number b) m)) ∧
      (Scalar.isNaN (area f (number a) (number b) (n + m)) = false →
        area f (number a) (number b) (n + m) =
          area f (number a) (number mid) n + area f (number mid) (number b) m) := by
  have hsteps : ∀ k : Nat, k ≠ 0 → ∃ d : ℚ, d ≠ 0 ∧ (b - a) / k = d ∧ b = a + k * d := by
    intro k hk
    have hk : (k : ℚ) ≠ 0 := Nat.cast_ne_zero.2 hk
    refine ⟨(b - a) / k, div_ne_zero (sub_ne_zero.2 hab.symm) hk, rfl, ?_⟩
    rw [mul_div_cancel₀ _ hk, add_sub_cancel]
  have hn : n ≠ 0 := by omega
  refine ⟨?_, fun h => ?_, fun c e hf => ?_, fun m mid hm hmid => ?_⟩
  · obtain ⟨d, hd, hdiv, rfl⟩ := hsteps n hn
    rw [hdiv]
    exact isNaN_area hx f hn a hd
  · obtain ⟨d, hd, hdiv, rfl⟩ := hsteps n hn
    rw [hdiv] at h ⊢
    exact area_eq_sum_panel hx f hn a hd h
  · obtain ⟨d, hd, -, rfl⟩ := hsteps n hn
    have hordinate : ordinate number f = fun x => c * x + e := by
      funext x
      rw [ordinate, hf, counted_number hx]
    refine ⟨_, area_eq_sum_panel hx f hn a hd fun i _ => ?_, ?_⟩
    · rw [hf, hx.isNaN]
    · rw [hordinate, sum_panel_affine, integral_affine]
  · obtain ⟨d, hd, hdiv, hb⟩ := hsteps (n + m) (by omega)
    rw [hdiv] at hmid
    have hm : m ≠ 0 := by omega
    have hright : b = a + n * d + m * d := by rw [hb, Nat.cast_add, add_mul, add_assoc]
    have hadd := isNaN_area_add hx f hn hm a hd
    rw [← hright, ← hb] at hadd
    subst hmid
    have hsum := area_add hx f hn hm a hd
    rw [← hright, ← hb] at hsum
    exact ⟨hadd, hsum⟩

end Area

/-- `1 / x` -/
def reciprocal : Sequence Extended :=
  [.number (.number 1), .var .independent, .op .div]

theorem ordinate_reciprocal (x : ℚ) : ordinate .number reciprocal.eval x = 1 / x := by
  have heval : reciprocal.eval (.number x) = Extended.div (.number 1) (.number x) := rfl
  rw [ordinate, heval, Extended.div]
  split
  · exact counted_number Extended.complete _
  · next hx =>
    rw [not_not.1 hx, div_zero]
    exact counted_of_not_isFinite rfl

theorem area_trapezoids_reciprocal : (-1 : ℚ) ≠ 2 ∧
    area reciprocal.eval (.number (-1)) (.number 2) 3 = .number (3 / 4) := by
  have hne : (-1 : ℚ) ≠ 2 := by norm_num
  refine ⟨hne, ?_⟩
  rw [(area_trapezoids Extended.complete reciprocal.eval hne (n := 3) (by decide)).2.1 (by decide +kernel)]
  simp only [Finset.sum_range_succ, Finset.sum_range_zero, panel, ordinate_reciprocal]
  norm_num

/-! ## From the other end -/

section Reverse

variable {number : ℚ → α} (hx : Complete number) (f : α → α)
include hx

theorem gridPoint_reverse {n : Nat} (hn : n ≠ 0) (a b : ℚ) {i : Nat} (hi : i ≤ n) :
    gridPoint (number b) ((number a - number b) / Scalar.ofNat n) i =
      gridPoint (number a) ((number b - number a) / Scalar.ofNat n) (n - i) := by
  have hn : (n : ℚ) ≠ 0 := Nat.cast_ne_zero.2 hn
  rw [hx.sub, hx.sub, hx.ofNat, hx.div _ _ hn, hx.div _ _ hn, gridPoint_number hx, gridPoint_number hx, Nat.cast_sub hi]
  congr 1
  field_simp
  ring

theorem isNaN_area_reverse {n : Nat} (hn : n ≠ 0) (a : ℚ) {d : ℚ} (hd : d ≠ 0) :
    Scalar.isNaN (area f (number (a + n * d)) (number a) n) ↔
      Scalar.isNaN (area f (number a) (number (a + n * d)) n) := by
  have hback := isNaN_area hx f hn (a + n * d) (neg_ne_zero.2 hd)
  rw [mul_neg, add_neg_cancel_right] at hback
  rw [hback, isNaN_area hx f hn a hd]
  constructor
  · rintro ⟨i, hi, h⟩
    exact ⟨n - i, Nat.sub_le n i, by rwa [← reverse_step a d hi]⟩
  · rintro ⟨i, hi, h⟩
    refine ⟨n - i, Nat.sub_le n i, ?_⟩
    rwa [reverse_step a d (Nat.sub_le n i), Nat.sub_sub_self hi]

theorem area_reverse {n : Nat} (hn : n ≠ 0) (a : ℚ) {d : ℚ} (hd : d ≠ 0)
    (hnan : Scalar.isNaN (area f (number a) (number (a + n * d)) n) = false) :
    area f (number (a + n * d)) (number a) n = -area f (number a) (number (a + n * d)) n := by
  have h := not_isNaN_sample hx f hn a hd hnan
  have hdefined : ∀ i ≤ n, Scalar.isNaN (f (number (a + n * d + i * -d))) = false := by
    intro i hi
    rw [reverse_step a d hi]
    exact h _ (Nat.sub_le n i)
  have hback := area_of_defined hx f hn (a + n * d) (neg_ne_zero.2 hd) hdefined
  rw [mul_neg, add_neg_cancel_right] at hback
  rw [hback, area_of_defined hx f hn a hd h, hx.neg, ← mul_neg,
    ← sum_weight_reverse fun i : Nat => ordinate number f (a + i * d)]
  congr 2
  refine Finset.sum_congr rfl fun i hi => ?_
  have := Finset.mem_range.1 hi
  rw [reverse_step a d (by omega)]

/-- With the bounds swapped the same samples are taken in reverse, so the area changes its sign and nothing else. -/
theorem area_swap (a b : ℚ) (n : Nat) :
    (Scalar.isNaN (area f (number b) (number a) n) ↔ Scalar.isNaN (area f (number a) (number b) n)) ∧
    (Scalar.isNaN (area f (number a) (number b) n) = false →
      area f (number b) (number a) n = -area f (number a) (number b) n) ∧
    (n ≠ 0 → ∀ i ≤ n, f (gridPoint (number b) ((number a - number b) / Scalar.ofNat n) i) =
      f (gridPoint (number a) ((number b - number a) / Scalar.ofNat n) (n - i))) := by
  have hsamples : n ≠ 0 → ∀ i ≤ n, f (gridPoint (number b) ((number a - number b) / Scalar.ofNat n) i) =
      f (gridPoint (number a) ((number b - number a) / Scalar.ofNat n) (n - i)) := fun hn i hi => by
    rw [gridPoint_reverse hx hn a b hi]
  rw [← and_assoc]
  refine ⟨?_, hsamples⟩
  by_cases hzero : n = 0 ∨ a = b
  · -- nothing is sampled
    have hempty : ∀ p q : ℚ, n = 0 ∨ p = q → area f (number p) (number q) n = number 0 := by
      intro p q h
      have : (decide (n = 0) || number p == number q) = true := by
        rw [Bool.or_eq_true, decide_eq_true_iff, hx.beq]
        exact h
      rw [area, if_pos this, hx.zero]
    rw [hempty a b hzero, hempty b a (hzero.imp_right Eq.symm), hx.neg, neg_zero]
    exact ⟨Iff.rfl, fun _ => rfl⟩
  · obtain ⟨hn, hab⟩ := not_or.1 hzero
    have hcast : (n : ℚ) ≠ 0 := Nat.cast_ne_zero.2 hn
    have hd : (b - a) / n ≠ 0 := div_ne_zero (sub_ne_zero.2 (Ne.symm hab)) hcast
    obtain hb : b = a + n * ((b - a) / n) := by rw [mul_div_cancel₀ _ hcast, add_sub_cancel]
    generalize (b - a) / n = d at hd hb
    subst hb
    exact ⟨isNaN_area_reverse hx f hn a hd, area_reverse hx f hn a hd⟩

end Reverse

theorem area_swap_reciprocal : Scalar.isNaN (area reciprocal.eval (.number (-1)) (.number 2) 3) = false ∧
    area reciprocal.eval (.number 2) (.number (-1)) 3 = -area reciprocal.eval (.number (-1)) (.number 2) 3 := by
  have hdefined : Scalar.isNaN (area reciprocal.eval (.number (-1)) (.number 2) 3) = false := by decide +kernel
  exact ⟨hdefined, (area_swap Extended.complete reciprocal.eval (-1) 2 3).2.1 hdefined⟩

end Formula
