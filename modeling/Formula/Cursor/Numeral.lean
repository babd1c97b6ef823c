import Formula.Cursor.Basic
import Formula.Scalar

/-!
Unsigned decimal numerals, `digits` or `digits.digits`. A point that no digit follows is an error and not the end of the
numeral.
-/

namespace Formula

structure Numeral where
  whole : List Char
  fraction : List Char
  deriving DecidableEq

/-- Digits and a point with nothing behind it, and where they start. -/
structure DanglingPoint where
  lexeme : String
  pos : Nat
  deriving DecidableEq

def DanglingPoint.message (e : DanglingPoint) : String :=
  "malformed number '" ++ e.lexeme ++ "' at position " ++ toString e.pos

namespace Numeral

def text (n : Numeral) : List Char :=
  if n.fraction.isEmpty then n.whole else n.whole ++ '.' :: n.fraction

def value {α : Type} [Scalar α] (n : Numeral) : α :=
  Scalar.ofDigits (Nat.ofDigitChars 10 (n.whole ++ n.fraction) 0) n.fraction.length

theorem text_ne_nil {n : Numeral} (h : n.whole ≠ []) : n.text ≠ [] := by
  unfold text
  split
  · exact h
  · simp

end Numeral

namespace Cursor

def digits (c : Cursor) : List Char := c.unread.takeWhile Char.isDigit

def skipDigits (c : Cursor) : Cursor := c.skipWhile Char.isDigit

/-- The longest numeral at the cursor, `none` if no digit stands there. -/
def numeral? (c : Cursor) : Except DanglingPoint (Option (Numeral × Cursor)) :=
  if c.digits = [] then .ok none
  else
    match c.skipDigits.accept? '.' with
    | none => .ok (some (⟨c.digits, []⟩, c.skipDigits))
    | some point =>
      if point.digits = [] then .error ⟨String.ofList (c.digits ++ ['.']), c.pos⟩
      else .ok (some (⟨c.digits, point.digits⟩, point.skipDigits))

theorem skipDigits_moves (c : Cursor) : Moves c c.digits c.skipDigits := skipWhile_moves _ c

theorem numeral?_moves {c d : Cursor} {n : Numeral} (h : c.numeral? = .ok (some (n, d))) :
    Moves c n.text d ∧ n.whole ≠ [] := by
  unfold numeral? at h
  split at h
  · simp at h
  · next hw =>
    split at h
    · simp only [Except.ok.injEq, Option.some.injEq, Prod.mk.injEq] at h
      obtain ⟨rfl, rfl⟩ := h
      exact ⟨skipDigits_moves c, hw⟩
    · next point hp =>
      split at h
      · simp at h
      · next hf =>
        simp only [Except.ok.injEq, Option.some.injEq, Prod.mk.injEq] at h
        obtain ⟨rfl, rfl⟩ := h
        have hm := (skipDigits_moves c).trans ((accept?_moves hp).trans (skipDigits_moves point))
        simp only [Numeral.text, List.isEmpty_iff, hf, if_false]
        exact ⟨hm, hw⟩

end Cursor

end Formula
