import Formula.Sequence

/-!
The value of a sequence where the independent variable is bound. A cell keeps beside the value whether the variable took
part in it: a power of a negative base is undefined as soon as its exponent does.
-/

namespace Formula

/-- Why a sequence has no value: an operator lacks an operand, an argument lies outside a domain, or the dependent
variable occurs. -/
inductive Fault where
  | underflow
  | undefined
  | unbound
  deriving DecidableEq, Repr

structure Cell (α : Type) where
  value : α
  depends : Bool

variable {α : Type} [Scalar α]

namespace Cell

def constant (value : α) : Cell α := ⟨value, false⟩

def bound (value : α) : Cell α := ⟨value, true⟩

def neg (c : Cell α) : Cell α := ⟨-c.value, c.depends⟩

def call (f : Func) (c : Cell α) : Except Fault (Cell α) :=
  if f.requiresPositive && c.value ≤ 0.0 then .error .undefined else .ok ⟨f.apply c.value, c.depends⟩

def log (base arg : Cell α) : Except Fault (Cell α) :=
  if base.value ≤ 0.0 || base.value == 1.0 || arg.value ≤ 0.0 then .error .undefined
  else .ok ⟨Scalar.ln arg.value / Scalar.ln base.value, base.depends || arg.depends⟩

def op (o : BinOp) (l r : Cell α) : Except Fault (Cell α) :=
  if o == .pow && l.value < 0.0 && r.depends then .error .undefined
  else .ok ⟨o.apply l.value r.value, l.depends || r.depends⟩

end Cell

/-- The top of the stack that is left; nothing at all is left of a sequence without tokens, which is zero. -/
def settle (s : Sequence α) (stack : List (Cell α)) : Except Fault (Cell α) :=
  if s.isEmpty then .ok (.constant 0.0)
  else match stack with
    | [] => .error .underflow
    | c :: _ => .ok c

mutual

def Token.run (x : α) (stack : List (Cell α)) : Token α → Except Fault (List (Cell α))
  | .number v => .ok (.constant v :: stack)
  | .var .independent => .ok (.bound x :: stack)
  | .var .dependent => .error .unbound
  | .call f arg => do
    let a ← settle arg (← Sequence.run x [] arg)
    return (← a.call f) :: stack
  | .log base arg => do
    let b ← settle base (← Sequence.run x [] base)
    let a ← settle arg (← Sequence.run x [] arg)
    return (← Cell.log b a) :: stack
  | .neg =>
    match stack with
    | c :: below => .ok (c.neg :: below)
    | [] => .error .underflow
  | .op o =>
    match stack with
    | r :: l :: below => do return (← Cell.op o l r) :: below
    | _ => .error .underflow

def Sequence.run (x : α) (stack : List (Cell α)) : Sequence α → Except Fault (List (Cell α))
  | [] => .ok stack
  | t :: ts => do Sequence.run x (← Token.run x stack t) ts

end

namespace Sequence

def cell (s : Sequence α) (x : α) : Except Fault (Cell α) := do settle s (← run x [] s)

def cell? (s : Sequence α) (x : α) : Option (Cell α) := (s.cell x).toOption

/-- Not-a-number where the sequence is undefined. -/
def eval (s : Sequence α) (x : α) : α := ((s.cell? x).map Cell.value).getD Scalar.nan

theorem run_append (x : α) (stack : List (Cell α)) (s t : Sequence α) :
    run x stack (s ++ t) = (run x stack s).bind (run x · t) := by
  induction s generalizing stack with
  | nil => simp [run, Except.bind]
  | cons u us ih =>
    simp only [List.cons_append, run, bind, Except.bind]
    cases Token.run x stack u with
    | error e => rfl
    | ok stack' => exact ih stack'

end Sequence

end Formula
