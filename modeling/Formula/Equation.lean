import Formula.Grammar.Parse
import Formula.Roots

/-!
Equations `lhs = rhs` in two variables, read as the difference of their sides; a blank side is zero. With the first
variable fixed, the roots of the difference are the curve's points there.
-/

namespace Formula

structure Equation (α : Type) where
  difference : Sequence α

namespace Equation

variable {α : Type} [Scalar α]

def side (text : String) : String := if (Text.trim text.toList).isEmpty then "0" else text

def differenceText (lhs rhs : String) : String := "(" ++ side lhs ++ ")-(" ++ side rhs ++ ")"

def parse (lhs rhs : String) (independent : String := "x") (dependent : String := "y") :
    Except ParseError (Equation α) :=
  ((Grammar.twoVariables independent dependent).parse (differenceText lhs rhs)).map Equation.mk

/-- The difference of the sides at `(x, y)`, zero on the curve. -/
def eval (e : Equation α) (x y : α) : α := (e.difference.substitute x).eval y

/-- As many parts as the range has whole units, one at least. -/
def unitParts (lower upper : α) : Nat := max (Scalar.count (Scalar.ceil (upper - lower))) 1

/-- The scan of the dependent variable over `[lower, upper]` at `x`; of the finder only accuracy and limit count. -/
def scan (e : Equation α) (finder : Finder α) (x lower upper : α) : List (Verdict α) :=
  { finder with intervals := unitParts lower upper }.scan (e.difference.substitute x).eval lower upper

def valuesAt (e : Equation α) (finder : Finder α) (x lower upper : α) : List α :=
  (e.scan finder x lower upper).filterMap Verdict.root?

end Equation

end Formula
