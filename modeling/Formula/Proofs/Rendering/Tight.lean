import Formula.Proofs.Grammar.Context
import Formula.Proofs.Rendering.Legible

/-!
No blanks stand at the ends of a printed tree, so the parser trims nothing from it.
-/

namespace Formula

open Text

variable {α : Type} [Scalar α]

/-- Printed without a sign, as a numeral that denotes `w`. -/
def Scalar.ReadsAs (v w : α) : Prop :=
  ∃ m : Numeral, (m.whole ≠ [] ∧ ∀ c ∈ m.whole ++ m.fraction, c.isDigit) ∧
    Scalar.text v = String.ofList m.text ∧ m.value = w

/-- Printed without a sign, as a numeral that denotes the same number. -/
def Scalar.ReadsBack (v : α) : Prop :=
  ∃ m : Numeral, (m.whole ≠ [] ∧ ∀ c ∈ m.whole ++ m.fraction, c.isDigit) ∧
    Scalar.text v = String.ofList m.text ∧ m.value = v

theorem Piece.tight_enclosed {p : Piece} (h : Tight p.text.toList) (b : Bool) : Tight (p.enclosed b).toList := by
  cases b with
  | false => exact h
  | true => simpa [enclosed] using Text.tight_enclosed p.text.toList

variable {g : Grammar} {n : Names}

theorem Legible.tight {t : Term α} (h : Legible g t) (hg : g.Calls n)
    (hl : ∀ v ∈ t.literals, ∃ w, Scalar.ReadsAs v w) : Tight (t.piece n).text.toList := by
  have number : ∀ v : α, (∃ w, Scalar.ReadsAs v w) → Tight (Scalar.text v).toList := by
    rintro v ⟨w, m, ⟨hne, hd⟩, ht, -⟩
    rw [ht, String.toList_ofList]
    exact (Numeral.word hne hd).tight
  have call : ∀ w : List Char, Word w → ∀ arg, Tight (w ++ '(' :: arg ++ [')']) := fun w hw arg => by
    simpa using hw.tight.append [] (Text.tight_enclosed arg)
  induction h with
  | leaf h =>
    cases h with
    | @name name slot _ hn =>
      rw [Term.piece, Piece.atom, ← hg.eq_of (Grammar.nameAt?_prefix hn).1]
      exact (hg.word hn).tight
    | euler | pi | numeral => exact number _ (hl _ List.mem_cons_self)
  | @call f t _ _ _ ih =>
    simpa [Term.piece, Piece.atom] using call _ f.word (t.piece n).text.toList
  | @log t u _ _ _ _ iht ihu =>
    simpa [Term.piece, Piece.atom] using
      call _ word_log ((t.piece n).text.toList ++ ',' :: ' ' :: (u.piece n).text.toList)
  | @neg t _ ih =>
    have hs : Tight ['-'] := .of_forall (by simp) (by simp; rfl)
    simpa [Term.piece, Piece.neg] using hs.append [] (Piece.tight_enclosed (ih hl) _)
  | @op o l r _ _ ihl ihr =>
    simp only [Term.literals, List.mem_append] at hl
    have hl' := Piece.tight_enclosed (ihl fun v hv => hl v (.inl hv)) (decide ((l.piece n).precedence < o.precedence))
    have hr' := Piece.tight_enclosed (ihr fun v hv => hl v (.inr hv)) (decide ((r.piece n).precedence ≤ o.precedence))
    simpa [Term.piece, Piece.op] using hl'.append [' ', o.symbol, ' '] hr'

end Formula
