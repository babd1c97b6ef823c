import Formula.Equation
import Formula.Proofs.Dependence

/-!
Replacing variables and evaluating is evaluating where the variables stand for what replaces them. An environment gives
each variable a cell, flag included, or says why it has none; the value and the flag of a sequence with replacements are
those of the sequence itself in the environment of the replacements.
-/

namespace Formula

variable {α : Type} [Scalar α]

/-- The cell each variable stands for, or why it has none. -/
abbrev Environment (α : Type) := Slot → Except Fault (Cell α)

namespace Environment

/-- The independent variable bound, the dependent one not. -/
def line (x : α) : Environment α
  | .independent => .ok (.bound x)
  | .dependent => .error .unbound

/-- A point of the plane as seen along the dependent variable: the independent one is a constant there. -/
def point (x y : α) : Environment α
  | .independent => .ok (.constant x)
  | .dependent => .ok (.bound y)

end Environment

mutual

def Token.runIn (env : Environment α) (stack : List (Cell α)) : Token α → Except Fault (List (Cell α))
  | .number v => .ok (.constant v :: stack)
  | .var slot => do return (← env slot) :: stack
  | .call f arg => do
    let a ← settle arg (← Sequence.runIn env [] arg)
    return (← a.call f) :: stack
  | .log base arg => do
    let b ← settle base (← Sequence.runIn env [] base)
    let a ← settle arg (← Sequence.runIn env [] arg)
    return (← Cell.log b a) :: stack
  | .neg =>
    match stack with
    | c :: below => .ok (c.neg :: below)
    | [] => .error .underflow
  | .op o =>
    match stack with
    | r :: l :: below => do return (← Cell.op o l r) :: below
    | _ => .error .underflow

def Sequence.runIn (env : Environment α) (stack : List (Cell α)) : Sequence α → Except Fault (List (Cell α))
  | [] => .ok stack
  | t :: ts => do Sequence.runIn env (← Token.runIn env stack t) ts

end

def Sequence.cellIn (env : Environment α) (s : Sequence α) : Except Fault (Cell α) := do settle s (← runIn env [] s)

def Sequence.evalIn (env : Environment α) (s : Sequence α) : α :=
  ((s.cellIn env).toOption.map Cell.value).getD Scalar.nan

namespace Token

theorem runIn_call (env : Environment α) (stack : List (Cell α)) (f : Func) (arg : Sequence α) :
    Token.runIn env stack (.call f arg) = Sequence.cellIn env arg >>= fun a => a.call f >>= fun c => .ok (c :: stack) := by
  rw [Token.runIn, Sequence.cellIn]
  cases Sequence.runIn env [] arg <;> rfl

theorem runIn_log (env : Environment α) (stack : List (Cell α)) (base arg : Sequence α) :
    Token.runIn env stack (.log base arg) = Sequence.cellIn env base >>= fun b => Sequence.cellIn env arg >>= fun a =>
      Cell.log b a >>= fun c => .ok (c :: stack) := by
  rw [Token.runIn, Sequence.cellIn, Sequence.cellIn]
  cases Sequence.runIn env [] base with
  | error e => rfl
  | ok st =>
    cases hb : settle base st with
    | error e => simp [bind, Except.bind, hb]
    | ok b =>
      simp only [bind, Except.bind, hb]
      cases Sequence.runIn env [] arg <;> rfl

/-- A token without operands puts its own cell on top. -/
theorem runIn_of_arity {t : Token α} (h : t.arity = 0) (env : Environment α) (stack : List (Cell α)) :
    t.runIn env stack = (Sequence.cellIn env [t]).map (· :: stack) := by
  have hcell : Sequence.cellIn env [t] = t.runIn env [] >>= settle [t] := by
    rw [Sequence.cellIn, Sequence.runIn]
    cases t.runIn env [] <;> rfl
  rw [hcell]
  cases t with
  | number v => rfl
  | var slot =>
    rw [runIn, runIn]
    cases env slot <;> rfl
  | call f arg =>
    rw [runIn_call, runIn_call]
    cases Sequence.cellIn env arg with
    | error e => rfl
    | ok a => cases hc : a.call f <;> simp [bind, Except.bind, Except.map, hc, settle]
  | log base arg =>
    rw [runIn_log, runIn_log]
    cases Sequence.cellIn env base with
    | error e => rfl
    | ok b =>
      cases Sequence.cellIn env arg with
      | error e => rfl
      | ok a => cases hc : Cell.log b a <;> simp [bind, Except.bind, Except.map, hc, settle]
  | neg | op => simp [arity] at h

end Token

open Sequence

-- On tokens and sequences together: the machine is the evaluator in the environment of its own binding.
theorem run_eq_runIn (x : α) :
    (∀ (t : Token α) stack, t.run x stack = t.runIn (.line x) stack) ∧
    ∀ (s : Sequence α) stack, run x stack s = runIn (.line x) stack s := by
  have cell : ∀ a : Sequence α, (∀ stack, run x stack a = runIn (.line x) stack a) → a.cell x = a.cellIn (.line x) :=
    fun a ih => by rw [Sequence.cell, cellIn, ih]
  refine Token.induct ?number ?var ?call ?log ?neg ?op ?nil ?cons
  case number | op => exact fun _ _ => rfl
  case neg => exact fun _ => rfl
  case var =>
    intro slot stack
    cases slot <;> rfl
  case call =>
    intro f arg ih stack
    rw [Token.run_call, Token.runIn_call, cell arg ih]
  case log =>
    intro base arg ihb iha stack
    rw [Token.run_log, Token.runIn_log, cell base ihb, cell arg iha]
  case nil => exact fun _ => rfl
  case cons =>
    intro t ts iht ihts stack
    simp only [run, runIn, iht, ihts]

/-! ## Replacing variables -/

theorem settle_mapVars (f : Slot → Token α) (s : Sequence α) : settle (mapVars f s) = settle s := by
  cases s <;> (funext stack; simp [settle, mapVars])

-- The environment is read at the variables only, and there the replacement runs.
theorem runIn_mapVars {f : Slot → Token α} (hf : ∀ slot, (f slot).arity = 0) (env : Environment α) :
    (∀ (t : Token α) stack, (t.mapVars f).runIn env stack = t.runIn (fun slot => cellIn env [f slot]) stack) ∧
    ∀ (s : Sequence α) stack, runIn env stack (s.mapVars f) = runIn (fun slot => cellIn env [f slot]) stack s := by
  have cell : ∀ a : Sequence α,
      (∀ stack, runIn env stack (a.mapVars f) = runIn (fun slot => cellIn env [f slot]) stack a) →
      (a.mapVars f).cellIn env = a.cellIn fun slot => cellIn env [f slot] := fun a ih => by
    rw [cellIn, cellIn, ih, settle_mapVars]
  refine Token.induct ?number ?var ?call ?log ?neg ?op ?nil ?cons
  case number | op => exact fun _ _ => rfl
  case neg => exact fun _ => rfl
  case var =>
    intro slot stack
    rw [Token.mapVars, Token.runIn_of_arity (hf slot), Token.runIn]
    cases cellIn env [f slot] <;> rfl
  case call =>
    intro g arg ih stack
    rw [Token.mapVars, Token.runIn_call, Token.runIn_call, cell arg ih]
  case log =>
    intro base arg ihb iha stack
    rw [Token.mapVars, Token.runIn_log, Token.runIn_log, cell base ihb, cell arg iha]
  case nil => exact fun _ => rfl
  case cons =>
    intro t ts iht ihts stack
    simp only [mapVars, runIn, iht, ihts]

namespace Sequence

theorem cell_eq_cellIn (s : Sequence α) (x : α) : s.cell x = s.cellIn (.line x) := by
  rw [cell, cellIn, (run_eq_runIn x).2]

/-- Replacing variables by operands is evaluating where they stand for the cells of these. -/
theorem cell_mapVars {f : Slot → Token α} (hf : ∀ slot, (f slot).arity = 0) (s : Sequence α) (x : α) :
    (s.mapVars f).cell x = s.cellIn fun slot => cell [f slot] x := by
  simp only [cell_eq_cellIn]
  rw [cellIn, cellIn, (runIn_mapVars hf _).2, settle_mapVars]

theorem cell_substitute (s : Sequence α) (x y : α) : (s.substitute x).cell y = s.cellIn (.point x y) := by
  rw [substitute, cell_mapVars (by rintro (_ | _) <;> rfl)]
  congr 1
  funext slot
  cases slot <;> rfl

end Sequence

/-! ## What lies below stays -/

namespace Token

theorem runIn_frame {env : Environment α} {t : Token α} {top : List (Cell α)} (h : t.arity ≤ top.length)
    (below : List (Cell α)) : t.runIn env (top ++ below) = (t.runIn env top).map (· ++ below) := by
  cases t with
  | number | var | call | log =>
    rw [runIn_of_arity rfl, runIn_of_arity rfl]
    generalize Sequence.cellIn env [_] = e
    cases e <;> rfl
  | neg =>
    rcases top with _ | ⟨c, top⟩
    · simp [arity] at h
    · rfl
  | op o =>
    rcases top with _ | ⟨r, _ | ⟨l, top⟩⟩
    · simp [arity] at h
    · simp [arity] at h
    · simp only [List.cons_append, runIn]
      cases Cell.op o l r <;> rfl

theorem length_runIn {env : Environment α} {t : Token α} {stack stack' : List (Cell α)} (ha : t.arity ≤ stack.length)
    (h : t.runIn env stack = .ok stack') : stack'.length = stack.length - t.arity + 1 := by
  cases t with
  | number | var | call | log =>
    rw [runIn_of_arity rfl] at h
    generalize Sequence.cellIn env [_] = e at h
    cases e <;> cases h
    rfl
  | neg =>
    rcases stack with _ | ⟨c, below⟩
    · simp [arity] at ha
    · cases h
      rfl
  | op o =>
    rcases stack with _ | ⟨r, _ | ⟨l, below⟩⟩
    · simp [arity] at ha
    · simp [arity] at ha
    · obtain ⟨c, -, h⟩ := Except.exists_of_bind_eq_ok h
      cases h
      rfl

end Token

namespace Sequence

theorem runIn_frame {env : Environment α} {s : Sequence α} {top : List (Cell α)} {n : Nat}
    (h : s.height top.length = some n) (below : List (Cell α)) :
    runIn env (top ++ below) s = (runIn env top s).map (· ++ below) := by
  induction s generalizing top with
  | nil => rfl
  | cons t ts ih =>
    simp only [height, Option.ite_none_right_eq_some] at h
    obtain ⟨ht, hts⟩ := h
    rw [runIn, runIn, Token.runIn_frame ht]
    cases hr : t.runIn env top with
    | error e => rfl
    | ok st => exact ih (by rw [Token.length_runIn ht hr]; exact hts)

theorem length_runIn {env : Environment α} {s : Sequence α} {stack stack' : List (Cell α)} {n : Nat}
    (hn : s.height stack.length = some n) (h : runIn env stack s = .ok stack') : stack'.length = n := by
  induction s generalizing stack with
  | nil =>
    cases h
    simpa [height] using hn
  | cons t ts ih =>
    simp only [height, Option.ite_none_right_eq_some] at hn
    obtain ⟨ht, hts⟩ := hn
    obtain ⟨st, hr, h⟩ := Except.exists_of_bind_eq_ok h
    exact ih (by rw [Token.length_runIn ht hr]; exact hts) h

theorem runIn_append (env : Environment α) (stack : List (Cell α)) (s t : Sequence α) :
    runIn env stack (s ++ t) = runIn env stack s >>= fun st => runIn env st t := by
  induction s generalizing stack with
  | nil => rfl
  | cons u us ih =>
    rw [List.cons_append, runIn, runIn]
    cases u.runIn env stack with
    | error e => rfl
    | ok st => exact ih st

/-- An operand puts its cell on top and leaves the rest alone. -/
theorem runIn_operand {s : Sequence α} (hs : s.Closed) (env : Environment α) (stack : List (Cell α)) :
    runIn env stack s.operand = (s.cellIn env).map (· :: stack) := by
  rcases hs with rfl | hs
  · rfl
  · have hne : s.isEmpty = false := by
      rcases s with _ | _
      · cases hs
      · rfl
    have hone : s.height ([] : List (Cell α)).length = some 1 := hs
    rw [operand, if_neg (by simp [hne]), ← List.nil_append stack, runIn_frame hone, cellIn]
    cases hr : runIn env [] s with
    | error e => rfl
    | ok st =>
      obtain ⟨c, rfl⟩ := List.length_eq_one_iff.1 (length_runIn hone hr)
      simp [bind, Except.bind, Except.map, settle, hne]

/-- An operator takes the cells of its operands, whatever lies below them. -/
theorem runIn_merge {l r : Sequence α} (hl : l.Closed) (hr : r.Closed) (o : BinOp) (env : Environment α)
    (stack : List (Cell α)) : runIn env stack (l.merge r o) =
      l.cellIn env >>= fun a => r.cellIn env >>= fun b => Cell.op o a b >>= fun c => .ok (c :: stack) := by
  rw [merge, runIn_append, runIn_append, runIn_operand hl]
  cases l.cellIn env with
  | error e => rfl
  | ok a =>
    simp only [bind, Except.bind, Except.map, runIn_operand hr]
    cases r.cellIn env with
    | error e => rfl
    | ok b =>
      simp only [runIn, Token.runIn]
      cases Cell.op o a b <;> rfl

end Sequence

/-! ## Where a variable stands after a replacement -/

omit [Scalar α] in
-- On tokens and sequences together: a variable is left where a replacement brought it in.
theorem mentions_mapVars (f : Slot → Token α) (slot : Slot) :
    (∀ t : Token α, (t.mapVars f).Mentions slot ↔ ∃ v, t.Mentions v ∧ (f v).Mentions slot) ∧
    ∀ s : Sequence α, Mentions slot (s.mapVars f) ↔ ∃ v, s.Mentions v ∧ (f v).Mentions slot := by
  refine Token.induct ?number ?var ?call ?log ?neg ?op ?nil ?cons
  case number | var | op | neg => simp [Token.mapVars, Token.Mentions, Token.arguments]
  case call =>
    intro g arg ih
    simp [Token.mapVars, Token.Mentions, Token.arguments, ih]
  case log =>
    intro base arg ihb iha
    simp [Token.mapVars, Token.Mentions, Token.arguments, ihb, iha, or_and_right, exists_or]
  case nil => simp [mapVars, not_mentions_nil]
  case cons =>
    intro t ts iht ihts
    simp [mapVars, mentions_cons, iht, ihts, or_and_right, exists_or]

namespace Sequence

omit [Scalar α] in
theorem mentions_substitute (s : Sequence α) (x : α) : (s.substitute x).Mentions .independent ↔ s.Mentions .dependent := by
  rw [substitute, (mentions_mapVars _ _).2]
  constructor
  · rintro ⟨_ | _, hs, hf⟩
    · simp [Token.Mentions, Token.arguments] at hf
    · exact hs
  · exact fun hs => ⟨.dependent, hs, .inl rfl⟩

theorem depends_point {s : Sequence α} (hs : WellFormed s) {x y : α} {c : Cell α} (h : s.cellIn (.point x y) = .ok c) :
    c.depends ↔ s.Mentions .dependent := by
  rw [← mentions_substitute s x]
  exact cell?_depends_iff (wellFormed_substitute hs x) (cell?_eq_some.2 ((cell_substitute s x y).trans h))

/-- A sequence with replacements has the cell that the sequence has where each variable stands for the cell of its
replacement, and none where that one has none; a curve at a point has its value where the first variable is a constant and
the second is bound, so that a power of a negative base is defined there unless the second variable stands in its
exponent. -/
theorem replaced_is_rebound :
    (∀ (s : Sequence α) (f : Slot → Token α) (x : α), (∀ slot, (f slot).arity = 0) →
      (s.mapVars f).cell x = s.cellIn fun slot => cell [f slot] x) ∧
    (∀ (s : Sequence α) (x : α), s.cell x = s.cellIn (.line x)) ∧
    (∀ (e : Equation α) (x y : α), e.eval x y = e.difference.evalIn (.point x y)) ∧
    ∀ (l r : Sequence α) (x y : α) (a : Cell α) (stack : List (Cell α)), WellFormed l → WellFormed r →
      l.cellIn (.point x y) = .ok a → a.value < 0.0 →
      (¬ r.Mentions .dependent → ∀ b, r.cellIn (.point x y) = .ok b →
        runIn (.point x y) stack (l.merge r .pow) = .ok (⟨Scalar.pow a.value b.value, a.depends⟩ :: stack)) ∧
      (r.Mentions .dependent → (runIn (.point x y) stack (l.merge r .pow)).toOption = none) := by
  refine ⟨fun s f x hf => cell_mapVars hf s x, cell_eq_cellIn, fun e x y => ?_, ?_⟩
  · rw [Equation.eval, eval, cell?, cell_substitute, evalIn]
  · intro l r x y a stack hl hr ha hneg
    rw [runIn_merge hl.closed hr.closed, ha]
    refine ⟨fun hm b hb => ?_, fun hm => ?_⟩
    · have hdep : b.depends = false := by simpa using mt (depends_point hr hb).1 hm
      simp [bind, Except.bind, Cell.op, hb, hdep, BinOp.apply]
    · cases hb : r.cellIn (.point x y) with
      | error e => rfl
      | ok b => simp [bind, Except.bind, Cell.op, hneg, (depends_point hr hb).2 hm, Except.toOption]

/-- In `x * sin(y - x)` both variables replaced; and `-2` to the power of each variable at a point. -/
theorem replaced_is_rebound_sin :
    cell (mapVars (fun
        | .independent => .number 2.0
        | .dependent => .call .abs [.var .independent])
      [.var .independent, .call .sin [.var .dependent, .var .independent, .op .sub], .op .mul]) (3.0 : Float) =
      .ok ⟨2.0 * Float.sin (Float.abs 3.0 - 2.0), true⟩ ∧
    runIn (.point 0.5 3.0) [] (merge [.number (-2.0 : Float)] [.var .independent] .pow) =
      .ok [⟨Float.pow (-2.0) 0.5, false⟩] ∧
    (runIn (.point 0.5 3.0) [] (merge [.number (-2.0 : Float)] [.var .dependent] .pow)).toOption = none := by
  obtain ⟨hmap, -, -, hpow⟩ := replaced_is_rebound (α := Float)
  have hneg : (-2.0 : Float) < 0.0 := by decide +kernel
  have hnum : WellFormed [Token.number (-2.0 : Float)] := (Term.number (-2.0)).wellFormed_postorder
  have hvar : ∀ slot, WellFormed [Token.var (α := Float) slot] := fun slot => (Term.var slot).wellFormed_postorder
  refine ⟨?_, ?_, ?_⟩
  · rw [hmap _ _ _ (by rintro (_ | _) <;> rfl)]
    rfl
  · refine (hpow _ _ _ _ ⟨-2.0, false⟩ [] hnum (hvar .independent) rfl hneg).1 ?_ ⟨0.5, false⟩ rfl
    rw [mentions_cons]
    simp [Token.Mentions, Token.arguments, not_mentions_nil]
  · exact (hpow _ _ _ _ ⟨-2.0, false⟩ [] hnum (hvar .dependent) rfl hneg).2 (mentions_cons.2 (.inl (.inl rfl)))

end Sequence

end Formula
