import Formula.Proofs.Roots

/-!
Zeros on the cuts. A part reports the zero at its left end and otherwise, if it is the last one, the zero at its right
end. So the end of the interval is the one cut whose zero can be lost: the last part reports a single zero, and its left
end goes first.
-/

namespace Formula

variable {α : Type}

namespace Verdict

/-- A cut that is reported as it stands. -/
def zero? : Verdict α → Option α
  | zero x => some x
  | quiet | refined .. => none

theorem root?_of_zero? {v : Verdict α} {x : α} (h : v.zero? = some x) : v.root? = some x := by
  cases v with
  | zero y => exact h
  | quiet | refined => cases h

/-- A root that is not reported as it stands comes of the iteration. -/
theorem refined_of_root? {v : Verdict α} {r : α} (hr : v.root? = some r) (hz : v.zero? = none) :
    ∃ x₁ x₂ run, v = .refined x₁ x₂ run ∧ run.outcome.toOption = some r := by
  cases v with
  | zero | quiet => simp_all [root?, zero?]
  | refined x₁ x₂ run => exact ⟨x₁, x₂, run, rfl, hr⟩

end Verdict

namespace Finder

variable [Scalar α] {finder : Finder α} {f : α → α} {lower upper : α}

/-- The cuts that the scan reports as zeros. -/
def zeros (finder : Finder α) (f : α → α) (lower upper : α) : List α :=
  (finder.scan f lower upper).filterMap Verdict.zero?

theorem mem_roots_of_mem_zeros {x : α} (h : x ∈ finder.zeros f lower upper) : x ∈ finder.roots f lower upper := by
  obtain ⟨v, hv, hx⟩ := List.mem_filterMap.1 h
  exact List.mem_filterMap.2 ⟨v, hv, Verdict.root?_of_zero? hx⟩

theorem zero?_inspect (finder : Finder α) (f : α → α) (isLast : Bool) (x₁ x₂ : α) :
    (finder.inspect f isLast x₁ x₂).zero? =
      if f x₁ == 0.0 then some x₁ else if isLast && f x₂ == 0.0 then some x₂ else none := by
  have h := finder.inspected f isLast x₁ x₂
  generalize finder.inspect f isLast x₁ x₂ = v at h ⊢
  cases h with
  | left h₁ => simp [Verdict.zero?, h₁]
  | last h₁ h₂ hl => simp [Verdict.zero?, h₁, h₂, hl]
  | next h₁ h₂ hl => simp [Verdict.zero?, h₁, hl]
  | quiet h₁ h₂ => simp [Verdict.zero?, h₁, h₂]
  | refined h₁ h₂ => simp [Verdict.zero?, h₁, h₂]

theorem zero?_part_inner {m i : Nat} (hm : finder.intervals = m + 1) (hi : i < m) :
    (finder.part f lower upper i).zero? =
      Option.guard (fun x => f x == 0.0) (finder.cut lower upper i) := by
  have hl : (i + 1 == finder.intervals) = false := by
    rw [hm, beq_eq_false_iff_ne]
    omega
  rw [part, zero?_inspect, hl]
  simp [Option.guard]

theorem zero?_part_last {m : Nat} (hm : finder.intervals = m + 1) :
    (finder.part f lower upper m).zero? =
      if f (finder.cut lower upper m) == 0.0 then some (finder.cut lower upper m)
      else Option.guard (fun x => f x == 0.0) (finder.cut lower upper (m + 1)) := by
  rw [part, zero?_inspect, hm]
  simp [Option.guard]

/-- Each zero on a cut once and from left to right; the one at the end only if no zero begins the last part. -/
theorem zeros_eq {m : Nat} (hm : finder.intervals = m + 1) :
    finder.zeros f lower upper =
      ((List.range (m + 1)).map (finder.cut lower upper)).filter (fun x => f x == 0.0) ++
        if f (finder.cut lower upper m) == 0.0 then []
        else [finder.cut lower upper (m + 1)].filter fun x => f x == 0.0 := by
  have hinner : (List.range m).filterMap (fun i => (finder.part f lower upper i).zero?) =
      ((List.range m).map (finder.cut lower upper)).filter fun x => f x == 0.0 := by
    rw [← List.filterMap_eq_filter, List.filterMap_map]
    exact List.filterMap_congr fun i hi => zero?_part_inner hm (List.mem_range.1 hi)
  have hlast : [m].filterMap (fun i => (finder.part f lower upper i).zero?) =
      [finder.cut lower upper m].filter (fun x => f x == 0.0) ++
        if f (finder.cut lower upper m) == 0.0 then []
        else [finder.cut lower upper (m + 1)].filter fun x => f x == 0.0 := by
    cases h : f (finder.cut lower upper m) == 0.0 with
    | true => simp [zero?_part_last hm, h]
    | false => cases h' : f (finder.cut lower upper (m + 1)) == 0.0 <;> simp [zero?_part_last hm, h, h']
  rw [zeros, scan_eq, hm, List.filterMap_map, List.range_succ, List.filterMap_append, List.map_append,
    List.filter_append, List.append_assoc]
  exact congrArg₂ (· ++ ·) hinner hlast

/-- A zero on a cut is found, at the end of the interval too unless the cut before the end is a zero itself; and no cut is
reported as a zero twice or out of order. -/
theorem mem_roots_of_zero {m : Nat} (hm : finder.intervals = m + 1) :
    (∀ i ≤ m + 1, f (finder.cut lower upper i) == 0.0 →
      (i = m + 1 → (f (finder.cut lower upper m) == 0.0) = false) →
      finder.cut lower upper i ∈ finder.roots f lower upper) ∧
    finder.zeros f lower upper =
      ((List.range (m + 1)).map (finder.cut lower upper)).filter (fun x => f x == 0.0) ++
        if f (finder.cut lower upper m) == 0.0 then []
        else [finder.cut lower upper (m + 1)].filter fun x => f x == 0.0 := by
  refine ⟨fun i hi hz hlast => mem_roots_of_mem_zeros ?_, zeros_eq hm⟩
  rw [zeros_eq hm, List.mem_append]
  rcases Nat.lt_or_eq_of_le hi with hi | rfl
  · left
    exact List.mem_filter.2 ⟨List.mem_map_of_mem (List.mem_range.2 hi), hz⟩
  · right
    rw [hlast rfl]
    exact List.mem_filter.2 ⟨List.mem_singleton_self _, hz⟩

theorem mem_roots_of_zero_hill :
    ((-1.0 : Float) ∈ roots ({ standard with intervals := 4 } : Finder Float) hill.eval (-1.0) 3.0) ∧
    (3.0 : Float) ∈ roots ({ standard with intervals := 4 } : Finder Float) hill.eval (-1.0) 3.0 := by
  have h0 : ({ standard with intervals := 4 } : Finder Float).cut (-1.0) 3.0 0 = -1.0 := by decide +kernel
  have h4 : ({ standard with intervals := 4 } : Finder Float).cut (-1.0) 3.0 4 = 3.0 := by decide +kernel
  have hz := (@mem_roots_of_zero Float _ { standard with intervals := 4 } hill.eval (-1.0) 3.0 3 rfl).1
  have hfirst := hz 0 (by omega) (by decide +kernel) (by omega)
  have hlast := hz 4 (by omega) (by decide +kernel) (fun _ => by decide +kernel)
  rw [h0] at hfirst
  rw [h4] at hlast
  exact ⟨hfirst, hlast⟩

/-- Both ends of the only part are zeros, and the one at the end is lost. -/
theorem roots_end_lost :
    ({ standard with intervals := 1 } : Finder Float).cut (-1.0) 3.0 1 = 3.0 ∧ (hill.eval 3.0 == 0.0) = true ∧
    (3.0 : Float) ∉ roots ({ standard with intervals := 1 } : Finder Float) hill.eval (-1.0) 3.0 := by
  have hroots : roots ({ standard with intervals := 1 } : Finder Float) hill.eval (-1.0) 3.0 = [-1.0] := by
    decide +kernel
  refine ⟨by decide +kernel, by decide +kernel, ?_⟩
  rw [hroots, List.mem_singleton]
  decide +kernel

end Finder

end Formula
