import Formula.Cursor.Basic
import Formula.Token

/-!
The one-character marks of a formula: separators and binary operators.
-/

namespace Formula

inductive Symbol where
  | comma
  | opening
  | closing
  | op (o : BinOp)
  deriving DecidableEq, Repr

namespace Symbol

def char : Symbol → Char
  | comma => ','
  | opening => '('
  | closing => ')'
  | op o => o.symbol

def ofChar? : Char → Option Symbol
  | ',' => some comma
  | '(' => some opening
  | ')' => some closing
  | '+' => some (op .add)
  | '-' => some (op .sub)
  | '*' => some (op .mul)
  | '/' => some (op .div)
  | '^' => some (op .pow)
  | _ => none

def precedence : Symbol → Nat
  | comma | opening | closing => 0
  | op o => o.precedence

theorem ofChar?_char (s : Symbol) : ofChar? s.char = some s := by
  rcases s with _ | _ | _ | o <;> first | rfl | (cases o <;> rfl)

theorem char_of_ofChar? {c : Char} {s : Symbol} (h : ofChar? c = some s) : s.char = c := by
  unfold ofChar? at h
  split at h <;> simp_all <;> subst h <;> rfl

end Symbol

/-- The symbol right at the cursor. -/
def Cursor.symbolHere? : Cursor → Option (Symbol × Cursor)
  | ⟨_, []⟩ => none
  | ⟨read, x :: unread⟩ => (Symbol.ofChar? x).map fun s => (s, ⟨x :: read, unread⟩)

theorem Cursor.symbolHere?_moves {c d : Cursor} {s : Symbol} (h : c.symbolHere? = some (s, d)) :
    Moves c [s.char] d := by
  obtain ⟨read, _ | ⟨x, unread⟩⟩ := c
  · simp [symbolHere?] at h
  · obtain ⟨s', hs, he⟩ := Option.map_eq_some_iff.1 h
    simp only [Prod.mk.injEq] at he
    obtain ⟨rfl, rfl⟩ := he
    rw [Symbol.char_of_ofChar? hs]
    exact ⟨rfl, rfl⟩

end Formula
