import Formula.Scalar

/-!
The parts of a formula. A sequence lists tokens in the order in which a stack machine runs them; calls own their
arguments as sequences of their own. The empty sequence stands for zero.
-/

namespace Formula

/-- The dependent variable is the second one of a curve in two variables. -/
inductive Slot where
  | independent
  | dependent
  deriving DecidableEq, Repr

inductive Func where
  | ln | lg | sin | cos | tan | cot | arcsin | arccos | arctan | arccot | abs
  deriving DecidableEq, Repr

namespace Func

def all : List Func := [ln, lg, sin, cos, tan, cot, arcsin, arccos, arctan, arccot, abs]

def name : Func → String
  | ln => "ln"
  | lg => "lg"
  | sin => "sin"
  | cos => "cos"
  | tan => "tan"
  | cot => "cot"
  | arcsin => "arcsin"
  | arccos => "arccos"
  | arctan => "arctan"
  | arccot => "arccot"
  | abs => "abs"

/-- The logarithms have no value at zero and below. -/
def requiresPositive (f : Func) : Bool := f == ln || f == lg

def apply {α : Type} [Scalar α] : Func → α → α
  | ln, v => Scalar.ln v
  | lg, v => Scalar.lg v
  | sin, v => Scalar.sin v
  | cos, v => Scalar.cos v
  | tan, v => Scalar.tan v
  | cot, v => 1.0 / Scalar.tan v
  | arcsin, v => Scalar.arcsin v
  | arccos, v => Scalar.arccos v
  | arctan, v => Scalar.arctan v
  | arccot, v => Scalar.pi / 2.0 - Scalar.arctan v
  | abs, v => Scalar.abs v

theorem mem_all (f : Func) : f ∈ all := by cases f <;> decide

end Func

inductive BinOp where
  | add | sub | mul | div | pow
  deriving DecidableEq, Repr

namespace BinOp

def symbol : BinOp → Char
  | add => '+'
  | sub => '-'
  | mul => '*'
  | div => '/'
  | pow => '^'

def precedence : BinOp → Nat
  | add => 1
  | sub => 1
  | mul => 2
  | div => 2
  | pow => 4

def apply {α : Type} [Scalar α] : BinOp → α → α → α
  | add, l, r => l + r
  | sub, l, r => l - r
  | mul, l, r => l * r
  | div, l, r => l / r
  | pow, l, r => Scalar.pow l r

end BinOp

/-- A sign binds tighter than a product and looser than a power: `-2^2` is `-(2^2)` and `-2*3` is `(-2)*3`. -/
def signPrecedence : Nat := 3

inductive Token (α : Type) where
  | number (value : α)
  | var (slot : Slot)
  | call (f : Func) (arg : List (Token α))
  | log (base arg : List (Token α))
  | neg
  | op (o : BinOp)

abbrev Sequence (α : Type) := List (Token α)

/-- An induction that reaches the arguments of calls, all tokens of them. -/
theorem Token.induct {α : Type} {P : Token α → Prop} {Q : Sequence α → Prop}
    (number : ∀ v, P (.number v)) (var : ∀ s, P (.var s))
    (call : ∀ f arg, Q arg → P (.call f arg))
    (log : ∀ base arg, Q base → Q arg → P (.log base arg))
    (neg : P .neg) (op : ∀ o, P (.op o))
    (nil : Q []) (cons : ∀ t ts, P t → Q ts → Q (t :: ts)) : (∀ t, P t) ∧ ∀ ts, Q ts :=
  ⟨fun t => t.rec number var call log neg op nil cons, fun ts => ts.rec nil fun t ts ih =>
    cons t ts (t.rec number var call log neg op nil cons) ih⟩

end Formula
