import Formula.Proofs.Built
import Formula.Proofs.Scalar.Order

/-!
The domains of the logarithms. Where a sequence has a value, every operand of a logarithm in it has one too, however deep
it is nested, and none of them is at most zero. Not-a-number is not at most zero either: it goes through, and a power may
make a number of it again.
-/

namespace Formula

variable {α : Type} [Scalar α]

/-- The sequence has a value at `x`, one with the property. -/
def Sequence.Valued (x : α) (p : α → Prop) (s : Sequence α) : Prop := ∃ c, s.cell? x = some c ∧ p c.value

/-- The operands of a logarithm have values with the property, and the base is not one. -/
def Token.InDomain (x : α) (p : α → Prop) : Token α → Prop
  | .call f arg => f = .ln ∨ f = .lg → Sequence.Valued x p arg
  | .log base arg => Sequence.Valued x (fun v => p v ∧ (v == 1.0) = false) base ∧ Sequence.Valued x p arg
  | .number _ | .var _ | .neg | .op _ => True

/-- All logarithms in the sequence and in the arguments somewhere inside it have operands with the property. -/
def Sequence.InDomain (x : α) (p : α → Prop) (s : Sequence α) : Prop := ∀ u, Within u s → ∀ t ∈ u, t.InDomain x p

namespace Cell

variable {a b c : Cell α}

theorem not_le_of_call {f : Func} (h : a.call f = .ok c) (hf : f = .ln ∨ f = .lg) : ¬ a.value ≤ 0.0 := by
  intro hle
  have hnone := call_toOption f a
  rw [h, if_pos ⟨hf, hle⟩] at hnone
  cases hnone

theorem not_le_of_log (h : log b a = .ok c) : ¬ b.value ≤ 0.0 ∧ (b.value == 1.0) = false ∧ ¬ a.value ≤ 0.0 := by
  have hd : ¬ (b.value ≤ 0.0 ∨ b.value == 1.0 ∨ a.value ≤ 0.0) := by
    intro hd
    have hnone := log_toOption b a
    rw [h, if_pos hd] at hnone
    cases hnone
  simpa [not_or] using hd

end Cell

/-! ## What has run -/

namespace Token

variable {x : α} {stack stack' : List (Cell α)}

theorem exists_of_run_call {f : Func} {arg : Sequence α} (h : Token.run x stack (.call f arg) = .ok stack') :
    ∃ a c, arg.cell x = .ok a ∧ a.call f = .ok c := by
  rw [run_call] at h
  obtain ⟨a, ha, h⟩ := Except.exists_of_bind_eq_ok h
  obtain ⟨c, hc, -⟩ := Except.exists_of_bind_eq_ok h
  exact ⟨a, c, ha, hc⟩

theorem exists_of_run_log {base arg : Sequence α} (h : Token.run x stack (.log base arg) = .ok stack') :
    ∃ b a c, base.cell x = .ok b ∧ arg.cell x = .ok a ∧ Cell.log b a = .ok c := by
  rw [run_log] at h
  obtain ⟨b, hb, h⟩ := Except.exists_of_bind_eq_ok h
  obtain ⟨a, ha, h⟩ := Except.exists_of_bind_eq_ok h
  obtain ⟨c, hc, -⟩ := Except.exists_of_bind_eq_ok h
  exact ⟨b, a, c, hb, ha, hc⟩

theorem exists_cell_of_run {t : Token α} (h : t.run x stack = .ok stack') {a : Sequence α} (ha : a ∈ t.arguments) :
    ∃ c, a.cell x = .ok c := by
  cases t with
  | call f arg =>
    obtain ⟨c, -, hc, -⟩ := exists_of_run_call h
    rw [List.mem_singleton.1 ha]
    exact ⟨c, hc⟩
  | log base arg =>
    obtain ⟨b, c, -, hb, hc, -⟩ := exists_of_run_log h
    rcases List.mem_cons.1 ha with rfl | ha
    · exact ⟨b, hb⟩
    · rw [List.mem_singleton.1 ha]
      exact ⟨c, hc⟩
  | number | var | neg | op => cases ha

/-- The guards let through what is not at most zero. -/
theorem inDomain_of_run {t : Token α} (h : t.run x stack = .ok stack') : t.InDomain x fun v => ¬ v ≤ 0.0 := by
  cases t with
  | call f arg =>
    intro hf
    obtain ⟨a, c, ha, hc⟩ := exists_of_run_call h
    exact ⟨a, Sequence.cell?_eq_some.2 ha, Cell.not_le_of_call hc hf⟩
  | log base arg =>
    obtain ⟨b, a, c, hb, ha, hc⟩ := exists_of_run_log h
    obtain ⟨hbase, hone, harg⟩ := Cell.not_le_of_log hc
    exact ⟨⟨b, Sequence.cell?_eq_some.2 hb, hbase, hone⟩, a, Sequence.cell?_eq_some.2 ha, harg⟩
  | number | var | neg | op => trivial

end Token

namespace Sequence

/-- A run that ends well has run every token. -/
theorem exists_run_of_mem {x : α} {s : Sequence α} {stack stack' : List (Cell α)} (h : run x stack s = .ok stack')
    {t : Token α} (ht : t ∈ s) : ∃ st st', t.run x st = .ok st' := by
  induction s generalizing stack with
  | nil => cases ht
  | cons u us ih =>
    obtain ⟨st, hu, hus⟩ := Except.exists_of_bind_eq_ok h
    rcases List.mem_cons.1 ht with rfl | ht
    · exact ⟨stack, st, hu⟩
    · exact ih hus ht

theorem exists_run_of_cell {x : α} {s : Sequence α} {c : Cell α} (h : s.cell x = .ok c) {t : Token α} (ht : t ∈ s) :
    ∃ st st', t.run x st = .ok st' := by
  obtain ⟨stack, hs, -⟩ := Except.exists_of_bind_eq_ok h
  exact exists_run_of_mem hs ht

-- On the nesting: an argument has a cell because the token that owns it has run.
theorem exists_cell_within {x : α} {u s : Sequence α} (hu : Within u s) (h : ∃ c, s.cell x = .ok c) :
    ∃ c, u.cell x = .ok c := by
  induction hu with
  | self => exact h
  | argument ht ha _ ih =>
    obtain ⟨c, hc⟩ := h
    obtain ⟨st, st', hr⟩ := exists_run_of_cell hc ht
    exact ih (Token.exists_cell_of_run hr ha)

theorem inDomain_of_cell? {x : α} {s : Sequence α} (h : (s.cell? x).isSome) : s.InDomain x fun v => ¬ v ≤ 0.0 := by
  intro u hu t ht
  obtain ⟨c, hc⟩ := Option.isSome_iff_exists.1 h
  obtain ⟨d, hd⟩ := exists_cell_within hu ⟨c, cell?_eq_some.1 hc⟩
  obtain ⟨st, st', hr⟩ := exists_run_of_cell hd ht
  exact Token.inDomain_of_run hr

theorem InDomain.mono {x : α} {p q : α → Prop} {s : Sequence α} (h : s.InDomain x p) (hpq : ∀ v, p v → q v) :
    s.InDomain x q := by
  intro u hu t ht
  have := h u hu t ht
  cases t with
  | call f arg => exact fun hf => (this hf).imp fun c hc => ⟨hc.1, hpq _ hc.2⟩
  | log base arg =>
    exact this.imp (Exists.imp fun c hc => ⟨hc.1, hpq _ hc.2.1, hc.2.2⟩) (Exists.imp fun c hc => ⟨hc.1, hpq _ hc.2⟩)
  | number | var | neg | op => trivial

/-- What evaluates to a number has a value, and what has a value takes logarithms of and to positive numbers only, or of
and to what is not a number. -/
theorem logarithm_domain (s : Sequence Float) (x : Float) :
    (Scalar.isNaN (s.eval x) = false → (s.cell? x).isSome) ∧
    ((s.cell? x).isSome → s.InDomain x fun v => 0.0 < v ∨ Scalar.isNaN v) := by
  refine ⟨fun h => ?_, fun h => (inDomain_of_cell? h).mono fun v hv => ?_⟩
  · cases hc : s.cell? x with
    | some c => rfl
    | none =>
      rw [eval, hc] at h
      revert h
      decide +kernel
  · have hzero : ¬ (0.0 : Float).isNaN := by decide +kernel
    exact (Scalar.not_le_iff.1 hv).imp_right fun h => h.resolve_right hzero

theorem logarithm_domain_ln : (Scalar.isNaN (eval [.number (2.0 : Float)] 0.0) = false ∧
      (cell? [.number (2.0 : Float)] 0.0).isSome) ∧
    (cell? [.call .ln [.number (2.0 : Float)]] 0.0).isSome ∧
      InDomain 0.0 (fun v => 0.0 < v ∨ Scalar.isNaN v) [.call .ln [.number (2.0 : Float)]] := by
  have hnum : Scalar.isNaN (eval [.number (2.0 : Float)] 0.0) = false := by decide +kernel
  have hln : (cell? [.call .ln [.number (2.0 : Float)]] 0.0).isSome := by decide +kernel
  exact ⟨⟨hnum, (logarithm_domain _ _).1 hnum⟩, hln, (logarithm_domain _ _).2 hln⟩

def zeroByZero : Term Float := .op .div (.number 0.0) (.number 0.0)

/-- `ln(0/0)^0`. -/
def powerOfLn : Term Float := .op .pow (.call .ln zeroByZero) (.number 0.0)

theorem eval?_zeroByZero (x : Float) : zeroByZero.eval? x = some ⟨0.0 / 0.0, false⟩ := rfl

/-- `ln(0/0)^0` evaluates to a number, where a power of zero is one whatever its base. -/
theorem ln_nan_absorbed :
    ¬ ((∀ v : Float, Scalar.pow v 0.0 = 1.0) ∧ ∀ (s : Sequence Float) (x : Float), WellFormed s →
      Scalar.isNaN (s.eval x) = false → s.InDomain x (0.0 < ·)) := by
  rintro ⟨hpow, h⟩
  have hnot : ¬ (0.0 / 0.0 : Float) ≤ 0.0 := by decide +kernel
  have hone : powerOfLn.eval? 0.0 = some ⟨1.0, false⟩ := by
    simp only [powerOfLn, Term.eval?, eval?_zeroByZero]
    simp [hnot, BinOp.apply, hpow]
  have hnum : Scalar.isNaN (powerOfLn.postorder.eval 0.0) = false := by
    rw [eval, (powerOfLn.cell?_postorder 0.0).1, hone]
    decide +kernel
  obtain ⟨c, hc, hv⟩ := h _ 0.0 powerOfLn.wellFormed_postorder hnum _ (.self _) _ List.mem_cons_self (.inl rfl)
  rw [(zeroByZero.cell?_postorder 0.0).1, eval?_zeroByZero] at hc
  cases hc
  exact absurd hv (by decide +kernel)

end Sequence

end Formula
