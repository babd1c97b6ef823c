import Formula.Evaluation
import Formula.Proofs.Term

/-!
The stack machine against the value of a tree. Running a postorder puts the value of the tree on top of whatever stack it
finds, and has no value exactly where the tree has none.
-/

namespace Formula

variable {α : Type} [Scalar α]

/-- The value of a tree from the values of its parts; `none` as soon as one of them has none, where the dependent variable
stands, and outside the domains of the logarithms and of the power. -/
def Term.eval? (x : α) : Term α → Option (Cell α)
  | number v => some ⟨v, false⟩
  | var .independent => some ⟨x, true⟩
  | var .dependent => none
  | call f arg => do
    let a ← arg.eval? x
    if (f = .ln ∨ f = .lg) ∧ a.value ≤ 0.0 then none else some ⟨f.apply a.value, a.depends⟩
  | log base arg => do
    let b ← base.eval? x
    let a ← arg.eval? x
    if b.value ≤ 0.0 ∨ b.value == 1.0 ∨ a.value ≤ 0.0 then none
    else some ⟨Scalar.ln a.value / Scalar.ln b.value, b.depends || a.depends⟩
  | neg t => do
    let a ← t.eval? x
    some ⟨-a.value, a.depends⟩
  | op o l r => do
    let a ← l.eval? x
    let b ← r.eval? x
    if o = .pow ∧ a.value < 0.0 ∧ b.depends then none else some ⟨o.apply a.value b.value, a.depends || b.depends⟩

theorem Except.toOption_bind {ε β γ : Type} (e : Except ε β) (f : β → Except ε γ) :
    (e >>= f).toOption = e.toOption.bind fun b => (f b).toOption := by
  cases e <;> rfl

theorem Except.exists_of_bind_eq_ok {ε β γ : Type} {e : Except ε β} {f : β → Except ε γ} {c : γ} (h : e >>= f = .ok c) :
    ∃ b, e = .ok b ∧ f b = .ok c := by
  cases e with
  | error err => cases h
  | ok b => exact ⟨b, rfl, h⟩

namespace Cell

theorem call_toOption (f : Func) (a : Cell α) : (a.call f).toOption =
    if (f = .ln ∨ f = .lg) ∧ a.value ≤ 0.0 then none else some ⟨f.apply a.value, a.depends⟩ := by
  by_cases hd : (f = .ln ∨ f = .lg) ∧ a.value ≤ 0.0
  · simp [call, Func.requiresPositive, hd, Except.toOption]
  · rw [if_neg hd, call, if_neg (by simpa [Func.requiresPositive] using hd)]
    rfl

theorem log_toOption (b a : Cell α) : (log b a).toOption =
    if b.value ≤ 0.0 ∨ b.value == 1.0 ∨ a.value ≤ 0.0 then none
    else some ⟨Scalar.ln a.value / Scalar.ln b.value, b.depends || a.depends⟩ := by
  by_cases hd : b.value ≤ 0.0 ∨ b.value == 1.0 ∨ a.value ≤ 0.0
  · rw [if_pos hd, log, if_pos (by simpa [or_assoc] using hd)]
    rfl
  · rw [if_neg hd, log, if_neg (by simpa [or_assoc] using hd)]
    rfl

theorem op_toOption (o : BinOp) (l r : Cell α) : (op o l r).toOption =
    if o = .pow ∧ l.value < 0.0 ∧ r.depends then none else some ⟨o.apply l.value r.value, l.depends || r.depends⟩ := by
  by_cases hd : o = .pow ∧ l.value < 0.0 ∧ r.depends
  · rw [if_pos hd, op, if_pos (by simpa [and_assoc] using hd)]
    rfl
  · rw [if_neg hd, op, if_neg (by simpa [and_assoc] using hd)]
    rfl

end Cell

namespace Sequence

theorem cell?_eq_some {s : Sequence α} {x : α} {c : Cell α} : s.cell? x = some c ↔ s.cell x = .ok c := by
  rw [cell?]
  cases s.cell x <;> simp [Except.toOption]

/-- A whole sequence has the value that running it from an empty stack leaves on top. -/
theorem cell?_of_run {s : Sequence α} {x : α} {v : Option (Cell α)} (hs : s ≠ [])
    (h : (run x [] s).toOption = v.map (· :: [])) : s.cell? x = v := by
  rw [cell?, cell, Except.toOption_bind, h]
  cases v with
  | none => rfl
  | some c => simp [settle, hs, Except.toOption]

theorem run_singleton (x : α) (stack : List (Cell α)) (t : Token α) : run x stack [t] = Token.run x stack t := by
  simp only [run, bind, Except.bind]
  cases Token.run x stack t <;> rfl

theorem run_append_toOption (x : α) (stack : List (Cell α)) (s t : Sequence α) :
    (run x stack (s ++ t)).toOption = (run x stack s).toOption.bind fun st => (run x st t).toOption := by
  rw [run_append]
  exact Except.toOption_bind _ _

end Sequence

namespace Token

theorem run_call (x : α) (stack : List (Cell α)) (f : Func) (arg : Sequence α) :
    Token.run x stack (.call f arg) = Sequence.cell arg x >>= fun a => a.call f >>= fun c => .ok (c :: stack) := by
  rw [Token.run, Sequence.cell]
  cases Sequence.run x [] arg <;> rfl

theorem run_log (x : α) (stack : List (Cell α)) (base arg : Sequence α) :
    Token.run x stack (.log base arg) =
      Sequence.cell base x >>= fun b => Sequence.cell arg x >>= fun a => Cell.log b a >>= fun c => .ok (c :: stack) := by
  rw [Token.run, Sequence.cell, Sequence.cell]
  cases Sequence.run x [] base with
  | error e => rfl
  | ok st =>
    cases hb : settle base st with
    | error e => simp [bind, Except.bind, hb]
    | ok b =>
      simp only [bind, Except.bind, hb]
      cases Sequence.run x [] arg <;> rfl

end Token

namespace Term

open Sequence

-- On the tree, for every stack: what lies below stays there while the operands of an operator pile up above it.
theorem run_postorder (t : Term α) (x : α) (stack : List (Cell α)) :
    (run x stack t.postorder).toOption = (t.eval? x).map (· :: stack) := by
  induction t generalizing stack with
  | number v => rfl
  | var s => cases s <;> rfl
  | call f arg ih =>
    have ha : (Sequence.cell arg.postorder x).toOption = arg.eval? x := cell?_of_run arg.postorder_ne_nil (ih [])
    rw [postorder, run_singleton, Token.run_call, Except.toOption_bind, ha, eval?]
    cases arg.eval? x with
    | none => rfl
    | some a =>
      rw [Option.bind_some, Except.toOption_bind, Cell.call_toOption]
      simp only [bind, Option.bind_some]
      split <;> rfl
  | log base arg ihb iha =>
    have hb : (Sequence.cell base.postorder x).toOption = base.eval? x := cell?_of_run base.postorder_ne_nil (ihb [])
    have ha : (Sequence.cell arg.postorder x).toOption = arg.eval? x := cell?_of_run arg.postorder_ne_nil (iha [])
    rw [postorder, run_singleton, Token.run_log, Except.toOption_bind, hb, eval?]
    cases base.eval? x with
    | none => rfl
    | some b =>
      rw [Option.bind_some, Except.toOption_bind, ha]
      cases arg.eval? x with
      | none => rfl
      | some a =>
        rw [Option.bind_some, Except.toOption_bind, Cell.log_toOption]
        simp only [bind, Option.bind_some]
        split <;> rfl
  | neg t ih =>
    rw [postorder, run_append_toOption, ih, eval?]
    cases t.eval? x <;> rfl
  | op o l r ihl ihr =>
    rw [postorder, run_append_toOption, run_append_toOption, ihl, eval?]
    cases l.eval? x with
    | none => rfl
    | some a =>
      simp only [Option.map_some, Option.bind_some, ihr, bind]
      cases r.eval? x with
      | none => rfl
      | some b =>
        simp only [Option.map_some, Option.bind_some, run_singleton, Token.run]
        rw [Except.toOption_bind, Cell.op_toOption]
        split <;> rfl

/-- A postorder has the value of its tree, and running it on any stack puts that value on top and leaves the rest
alone. -/
theorem cell?_postorder (t : Term α) (x : α) :
    t.postorder.cell? x = t.eval? x ∧
      ∀ stack, (run x stack t.postorder).toOption = (t.eval? x).map (· :: stack) :=
  ⟨cell?_of_run t.postorder_ne_nil (t.run_postorder x []), t.run_postorder x⟩

end Term

end Formula
