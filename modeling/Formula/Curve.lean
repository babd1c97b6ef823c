import Formula.Area
import Formula.Grammar.Parse
import Formula.Rendering

/-!
Curves `y = f(x)`: a formula in one variable together with the text it was read from.
-/

namespace Formula

structure Curve (α : Type) where
  source : String
  name : String
  sequence : Sequence α

namespace Curve

variable {α : Type} [Scalar α]

def parse (text : String) (name : String := "x") : Except ParseError (Curve α) := do
  let s ← (Grammar.oneVariable name).parse text
  return { source := String.ofList (Text.trim text.toList), name := name, sequence := s }

def render (c : Curve α) : String := c.sequence.render { independent := c.name }

def eval (c : Curve α) (x : α) : α := c.sequence.eval x

def area (c : Curve α) (lower upper : α) (steps : Nat) : α := Formula.area c.eval lower upper steps

/-- Curves are the same if text, variable and sequence are. -/
def same (c d : Curve α) : Bool := c.source == d.source && c.name == d.name && Sequence.same c.sequence d.sequence

end Curve

end Formula
