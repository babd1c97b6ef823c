import Formula.Sequence

/-!
Formulas as trees. A tree's postorder is the sequence that computes it: the operands of an operator first, then the
operator, and an argument as a sequence of its own.
-/

namespace Formula

inductive Term (α : Type) where
  | number (v : α)
  | var (s : Slot)
  | call (f : Func) (arg : Term α)
  | log (base arg : Term α)
  | neg (t : Term α)
  | op (o : BinOp) (l r : Term α)

namespace Term

variable {α : Type}

def postorder : Term α → Sequence α
  | number v => [.number v]
  | var s => [.var s]
  | call f arg => [.call f arg.postorder]
  | log base arg => [.log base.postorder arg.postorder]
  | neg t => t.postorder ++ [.neg]
  | op o l r => l.postorder ++ r.postorder ++ [.op o]

/-- How deep calls nest inside each other. -/
def depth : Term α → Nat
  | number _ | var _ => 0
  | call _ arg => arg.depth + 1
  | log base arg => max base.depth arg.depth + 1
  | neg t => t.depth
  | op _ l r => max l.depth r.depth

theorem postorder_ne_nil (t : Term α) : t.postorder ≠ [] := by
  cases t <;> simp [postorder]

end Term

namespace Sequence

variable {α : Type}

theorem depth_append (s t : Sequence α) : depth (s ++ t) = max (depth s) (depth t) := by
  induction s with
  | nil => simp [depth]
  | cons u us ih => simp [depth, ih, Nat.max_assoc]

end Sequence

theorem Term.depth_postorder {α : Type} (t : Term α) : Sequence.depth t.postorder = t.depth := by
  induction t with
  | number v => rfl
  | var s => rfl
  | call f arg ih => simp [postorder, Sequence.depth, Token.depth, depth, ih]
  | log base arg ihb iha => simp [postorder, Sequence.depth, Token.depth, depth, ihb, iha]
  | neg t ih => simp [postorder, Sequence.depth_append, Sequence.depth, Token.depth, depth, ih]
  | op o l r ihl ihr => simp [postorder, Sequence.depth_append, Sequence.depth, Token.depth, depth, ihl, ihr]

end Formula
