import Formula.Sequence

/-!
A sequence as infix text. An operand goes into parens only where the operator around it would otherwise take it apart;
all operators group to the left.
-/

namespace Formula

structure Names where
  independent : String := "x"
  dependent : String := "y"

def Names.of (n : Names) : Slot → String
  | .independent => n.independent
  | .dependent => n.dependent

/-- An operand's text and how tightly its outermost operator binds. -/
structure Piece where
  text : String
  precedence : Nat

namespace Piece

/-- Binds tighter than every operator. -/
def atomic : Nat := 99

def atom (text : String) : Piece := ⟨text, atomic⟩

def enclosed (p : Piece) (parens : Bool) : String := if parens then "(" ++ p.text ++ ")" else p.text

def neg (p : Piece) : Piece := ⟨"-" ++ p.enclosed (p.precedence ≤ signPrecedence), signPrecedence⟩

def op (o : BinOp) (l r : Piece) : Piece :=
  ⟨l.enclosed (l.precedence < o.precedence) ++ " " ++ String.singleton o.symbol ++ " " ++
    r.enclosed (r.precedence ≤ o.precedence), o.precedence⟩

/-- A number that carries a minus sign reads like a negation. -/
def number {α : Type} [Scalar α] (v : α) : Piece :=
  ⟨Scalar.text v, if Scalar.isNegative v then signPrecedence else atomic⟩

end Piece

def malformed : String := "<malformed>"

variable {α : Type} [Scalar α]

/-- The text of the pieces left of `s`: one for a sequence that is an operand, none for the empty sequence. -/
def joined (s : Sequence α) : Option (List Piece) → String
  | some [p] => p.text
  | _ => if s.isEmpty then "0" else malformed

mutual

def Token.render (names : Names) (stack : List Piece) : Token α → Option (List Piece)
  | .number v => some (.number v :: stack)
  | .var s => some (.atom (names.of s) :: stack)
  | .call f arg => some (.atom (f.name ++ "(" ++ joined arg (Sequence.pieces names [] arg) ++ ")") :: stack)
  | .log base arg =>
    some (.atom ("log(" ++ joined base (Sequence.pieces names [] base) ++ ", " ++
      joined arg (Sequence.pieces names [] arg) ++ ")") :: stack)
  | .neg =>
    match stack with
    | p :: below => some (p.neg :: below)
    | [] => none
  | .op o =>
    match stack with
    | r :: l :: below => some (.op o l r :: below)
    | _ => none

/-- The pieces on the stack after all tokens; `none` if an operator lacks an operand. -/
def Sequence.pieces (names : Names) (stack : List Piece) : Sequence α → Option (List Piece)
  | [] => some stack
  | t :: ts => (Token.render names stack t).bind fun stack => Sequence.pieces names stack ts

end

def Sequence.render (names : Names) (s : Sequence α) : String := joined s (pieces names [] s)

def Sequence.text (s : Sequence α) : String := s.render {}

end Formula
