import Formula.Rendering
import Formula.Proofs.Term
import Formula.Text.Blank

/-!
The text of a tree. Printing a postorder puts together the texts of the subtrees, each with how tightly it binds.
-/

namespace Formula

variable {α : Type}

/-! ## Literals -/

mutual

def Token.literals : Token α → List α
  | .number v => [v]
  | .call _ arg => Sequence.literals arg
  | .log base arg => Sequence.literals base ++ Sequence.literals arg
  | .var _ | .neg | .op _ => []

def Sequence.literals : Sequence α → List α
  | [] => []
  | t :: ts => Token.literals t ++ Sequence.literals ts

end

def Term.literals : Term α → List α
  | number v => [v]
  | var _ => []
  | call _ arg => arg.literals
  | log base arg => base.literals ++ arg.literals
  | neg t => t.literals
  | op _ l r => l.literals ++ r.literals

theorem Sequence.literals_append (s t : Sequence α) : literals (s ++ t) = literals s ++ literals t := by
  induction s with
  | nil => simp [literals]
  | cons u us ih => simp [literals, ih]

theorem Term.literals_postorder (t : Term α) : Sequence.literals t.postorder = t.literals := by
  induction t with
  | number | var => rfl
  | call f arg ih => simp [postorder, Sequence.literals, Token.literals, literals, ih]
  | log base arg ihb iha => simp [postorder, Sequence.literals, Token.literals, literals, ihb, iha]
  | neg t ih => simp [postorder, Sequence.literals_append, Sequence.literals, Token.literals, literals, ih]
  | op o l r ihl ihr =>
    simp [postorder, Sequence.literals_append, Sequence.literals, Token.literals, literals, ihl, ihr]

variable [Scalar α]

/-! ## Pieces -/

def Term.piece (names : Names) : Term α → Piece
  | number v => .number v
  | var s => .atom (names.of s)
  | call f arg => .atom (f.name ++ "(" ++ (arg.piece names).text ++ ")")
  | log base arg => .atom ("log(" ++ (base.piece names).text ++ ", " ++ (arg.piece names).text ++ ")")
  | neg t => (t.piece names).neg
  | op o l r => .op o (l.piece names) (r.piece names)

theorem Sequence.pieces_append (names : Names) (stack : List Piece) (s t : Sequence α) :
    pieces names stack (s ++ t) = (pieces names stack s).bind fun stack => pieces names stack t := by
  induction s generalizing stack with
  | nil => simp [pieces]
  | cons u us ih => simp [pieces, ih, Option.bind_assoc]

theorem Term.pieces_postorder (names : Names) (t : Term α) (stack : List Piece) :
    Sequence.pieces names stack t.postorder = some (t.piece names :: stack) := by
  induction t generalizing stack with
  | number | var => simp [postorder, Sequence.pieces, Token.render, piece]
  | call f arg ih => simp [postorder, Sequence.pieces, Token.render, piece, joined, ih]
  | log base arg ihb iha => simp [postorder, Sequence.pieces, Token.render, piece, joined, ihb, iha]
  | neg t ih => simp [postorder, Sequence.pieces_append, Sequence.pieces, Token.render, piece, ih]
  | op o l r ihl ihr => simp [postorder, Sequence.pieces_append, Sequence.pieces, Token.render, piece, ihl, ihr]

theorem Term.render_postorder (names : Names) (t : Term α) : t.postorder.render names = (t.piece names).text := by
  rw [Sequence.render, pieces_postorder, joined]

end Formula
