import Mathlib
import Formula.Rendering
import Formula.Proofs.Term

/-!
Shapes: what is left of trees and sequences when the values of their numbers are forgotten. Sequences that compare equal have
the same shape, and so have their trees.
-/

namespace Formula

variable {α β : Type}

namespace Term

def map (f : α → β) : Term α → Term β
  | number v => .number (f v)
  | var s => .var s
  | call g arg => .call g (arg.map f)
  | log base arg => .log (base.map f) (arg.map f)
  | neg t => .neg (t.map f)
  | op o l r => .op o (l.map f) (r.map f)

def shape (t : Term α) : Term Unit := t.map fun _ => ()

/-- How many numbers, variables and calls the operators of a tree join. -/
def operands : Term α → Nat
  | number _ | var _ | call .. | log .. => 1
  | neg t => t.operands
  | op _ l r => l.operands + r.operands

/-- How tightly the outermost operator binds. -/
def precedence : Term α → Nat
  | number _ | var _ | call .. | log .. => Piece.atomic
  | neg _ => signPrecedence
  | op o _ _ => o.precedence

theorem operands_pos (t : Term α) : 0 < t.operands := by
  induction t with
  | number | var | call | log => exact Nat.one_pos
  | neg t ih => exact ih
  | op o l r ihl ihr => exact Nat.add_pos_left ihl _

theorem precedence_pos (t : Term α) : 1 ≤ t.precedence := by
  cases t with
  | number | var | call | log | neg => exact Nat.le_of_ble_eq_true rfl
  | op o l r => cases o <;> exact Nat.le_of_ble_eq_true rfl

theorem map_id (t : Term α) : t.map id = t := by
  induction t with
  | number | var => rfl
  | call f arg ih => rw [map, ih]
  | log base arg ihb iha => rw [map, ihb, iha]
  | neg t ih => rw [map, ih]
  | op o l r ihl ihr => rw [map, ihl, ihr]

theorem depth_map (f : α → β) (t : Term α) : (t.map f).depth = t.depth := by
  induction t with
  | number | var => rfl
  | call g arg ih => rw [map, depth, depth, ih]
  | log base arg ihb iha => rw [map, depth, depth, ihb, iha]
  | neg t ih => rw [map, depth, depth, ih]
  | op o l r ihl ihr => rw [map, depth, depth, ihl, ihr]

theorem shape_map (f : α → β) (t : Term α) : (t.map f).shape = t.shape := by
  induction t with
  | number | var => rfl
  | call g arg ih => exact congrArg (call g) ih
  | log base arg ihb iha => exact congrArg₂ log ihb iha
  | neg t ih => exact congrArg neg ih
  | op o l r ihl ihr => exact congrArg₂ (op o) ihl ihr

theorem operands_shape (t : Term α) : t.shape.operands = t.operands := by
  induction t with
  | number | var | call | log => rfl
  | neg t ih => exact ih
  | op o l r ihl ihr => exact congrArg₂ (· + ·) ihl ihr

theorem operands_eq_of_shape {t : Term α} {u : Term β} (h : t.shape = u.shape) : t.operands = u.operands := by
  rw [← t.operands_shape, h, u.operands_shape]

theorem precedence_shape (t : Term α) : t.shape.precedence = t.precedence := by
  cases t <;> rfl

theorem precedence_eq_of_shape {t : Term α} {u : Term β} (h : t.shape = u.shape) : t.precedence = u.precedence := by
  rw [← t.precedence_shape, h, u.precedence_shape]

theorem of_shape_neg {t : Term α} {u : Term β} (h : t.shape = (neg u).shape) : ∃ u', t = neg u' ∧ u'.shape = u.shape := by
  cases t with
  | neg u' => exact ⟨u', rfl, neg.inj h⟩
  | number | var | call | log | op => cases h

theorem of_shape_op {t : Term α} {o : BinOp} {l r : Term β} (h : t.shape = (op o l r).shape) :
    ∃ l' r', t = op o l' r' ∧ l'.shape = l.shape ∧ r'.shape = r.shape := by
  cases t with
  | op p l' r' =>
    obtain ⟨rfl, hl, hr⟩ := op.inj h
    exact ⟨l', r', rfl, hl, hr⟩
  | number | var | call | log | neg => cases h

/-! ## Postorders -/

/-- The token that computes the outermost operation. -/
def root : Term α → Token α
  | number v => .number v
  | var s => .var s
  | call f arg => .call f arg.postorder
  | log base arg => .log base.postorder arg.postorder
  | neg _ => .neg
  | op o _ _ => .op o

/-- What computes the operands of the outermost operation. -/
def front : Term α → Sequence α
  | number _ | var _ | call .. | log .. => []
  | neg t => t.postorder
  | op _ l r => l.postorder ++ r.postorder

theorem postorder_eq (t : Term α) : t.postorder = t.front ++ [t.root] := by
  cases t <;> rfl

theorem root_eq_of_append {t u : Term α} {p q : Sequence α} (h : p ++ t.postorder = q ++ u.postorder) :
    p ++ t.front = q ++ u.front ∧ t.root = u.root := by
  rw [postorder_eq, postorder_eq u, ← List.append_assoc, ← List.append_assoc] at h
  obtain ⟨hfront, hroot⟩ := List.append_inj' h rfl
  exact ⟨hfront, List.singleton_injective hroot⟩

-- By the last token, from the right: what stands before the operands is arbitrary, so the right operand is told first.
theorem postorder_append_inj {t u : Term α} {p q : Sequence α} (h : p ++ t.postorder = q ++ u.postorder) :
    p = q ∧ t = u := by
  induction t generalizing u p q with
  | number | var =>
    obtain ⟨hfront, hroot⟩ := root_eq_of_append h
    cases u <;> cases hroot
    exact ⟨by simpa [front] using hfront, rfl⟩
  | call f arg ih =>
    obtain ⟨hfront, hroot⟩ := root_eq_of_append h
    cases u with
    | call f' arg' =>
      obtain ⟨rfl, harg⟩ := Token.call.inj hroot
      obtain rfl := (ih (congrArg ([] ++ ·) harg)).2
      exact ⟨by simpa [front] using hfront, rfl⟩
    | number | var | log | neg | op => cases hroot
  | log base arg ihb iha =>
    obtain ⟨hfront, hroot⟩ := root_eq_of_append h
    cases u with
    | log base' arg' =>
      obtain ⟨hbase, harg⟩ := Token.log.inj hroot
      obtain rfl := (ihb (congrArg ([] ++ ·) hbase)).2
      obtain rfl := (iha (congrArg ([] ++ ·) harg)).2
      exact ⟨by simpa [front] using hfront, rfl⟩
    | number | var | call | neg | op => cases hroot
  | neg t ih =>
    obtain ⟨hfront, hroot⟩ := root_eq_of_append h
    cases u with
    | neg u =>
      obtain ⟨rfl, rfl⟩ := ih hfront
      exact ⟨rfl, rfl⟩
    | number | var | call | log | op => cases hroot
  | op o l r ihl ihr =>
    obtain ⟨hfront, hroot⟩ := root_eq_of_append h
    cases u with
    | op o' l' r' =>
      obtain rfl := Token.op.inj hroot
      simp only [front, ← List.append_assoc] at hfront
      obtain ⟨hleft, rfl⟩ := ihr hfront
      obtain ⟨rfl, rfl⟩ := ihl hleft
      exact ⟨rfl, rfl⟩
    | number | var | call | log | neg => cases hroot

theorem postorder_injective : Function.Injective (postorder (α := α)) := fun _ _ h =>
  (postorder_append_inj (p := []) (q := []) h).2

end Term

/-! ## Sequences -/

mutual

def Token.shape : Token α → Token Unit
  | .number _ => .number ()
  | .var s => .var s
  | .call f arg => .call f (Sequence.shape arg)
  | .log base arg => .log (Sequence.shape base) (Sequence.shape arg)
  | .neg => .neg
  | .op o => .op o

def Sequence.shape : Sequence α → Sequence Unit
  | [] => []
  | t :: ts => Token.shape t :: Sequence.shape ts

end

namespace Sequence

theorem shape_append (s t : Sequence α) : shape (s ++ t) = shape s ++ shape t := by
  induction s with
  | nil => rfl
  | cons u us ih => rw [List.cons_append, shape, shape, ih, List.cons_append]

theorem shape_postorder (t : Term α) : shape t.postorder = t.shape.postorder := by
  induction t with
  | number | var => rfl
  | call f arg ih => exact congrArg (fun s => [Token.call f s]) ih
  | log base arg ihb iha => exact congrArg₂ (fun s s' => [Token.log s s']) ihb iha
  | neg t ih =>
    rw [Term.postorder, shape_append, ih]
    rfl
  | op o l r ihl ihr =>
    rw [Term.postorder, shape_append, shape_append, ihl, ihr]
    rfl

-- On tokens and sequences together: a comparison looks at the same places whatever stands there.
theorem shape_eq_of_same [BEq α] : (∀ t u : Token α, t.same u → t.shape = u.shape) ∧
    ∀ s s' : Sequence α, same s s' → shape s = shape s' := by
  refine Token.induct ?number ?var ?call ?log ?neg ?op ?nil ?cons
  case number =>
    intro v u h
    cases u with
    | number w => rfl
    | var | call | log | neg | op => simp [Token.same] at h
  case var =>
    intro slot u h
    cases u with
    | var slot' =>
      rw [Token.same, beq_iff_eq] at h
      rw [h]
    | number | call | log | neg | op => simp [Token.same] at h
  case call =>
    intro f arg ih u h
    cases u with
    | call f' arg' =>
      rw [Token.same, Bool.and_eq_true, beq_iff_eq] at h
      rw [Token.shape, Token.shape, h.1, ih arg' h.2]
    | number | var | log | neg | op => simp [Token.same] at h
  case log =>
    intro base arg ihb iha u h
    cases u with
    | log base' arg' =>
      rw [Token.same, Bool.and_eq_true] at h
      rw [Token.shape, Token.shape, ihb base' h.1, iha arg' h.2]
    | number | var | call | neg | op => simp [Token.same] at h
  case neg =>
    intro u h
    cases u with
    | neg => rfl
    | number | var | call | log | op => simp [Token.same] at h
  case op =>
    intro o u h
    cases u with
    | op o' =>
      rw [Token.same, beq_iff_eq] at h
      rw [h]
    | number | var | call | log | neg => simp [Token.same] at h
  case nil =>
    intro s' h
    cases s' with
    | nil => rfl
    | cons => simp [same] at h
  case cons =>
    intro t ts iht ihts s' h
    cases s' with
    | nil => simp [same] at h
    | cons u us =>
      rw [same, Bool.and_eq_true] at h
      rw [shape, shape, iht u h.1, ihts us h.2]

/-- Trees of different shapes compute sequences that differ, and differ for a comparison too. -/
theorem postorder_ne_of_shape_ne [BEq α] {t u : Term α} (h : t.shape ≠ u.shape) :
    t.postorder ≠ u.postorder ∧ same t.postorder u.postorder = false := by
  have hshape : shape t.postorder ≠ shape u.postorder := by
    rw [shape_postorder, shape_postorder]
    exact fun he => h (Term.postorder_injective he)
  refine ⟨fun he => hshape (congrArg shape he), ?_⟩
  rw [← Bool.not_eq_true]
  exact fun hs => hshape (shape_eq_of_same.2 _ _ hs)

end Sequence

end Formula
