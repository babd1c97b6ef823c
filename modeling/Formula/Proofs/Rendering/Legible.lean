import Mathlib
import Formula.Proofs.Grammar.Naming
import Formula.Proofs.Grammar.Reading
import Formula.Proofs.Rendering.Piece
import Formula.Proofs.Text

/-!
Trees that the grammar can read. A tree that has been read somewhere holds no variable or function that another name
hides, and letters before anything else keep it so wherever it is written.
-/

namespace Formula

variable {α : Type}

/-- The parser calls its variables by the names `n`, which are words of letters. -/
structure Grammar.Speaks (g : Grammar) (n : Names) : Prop where
  names : g.names = [(n.independent, .independent)] ∨
    g.names = [(n.independent, .independent), (n.dependent, .dependent)]
  letters : ∀ p ∈ g.names, ∀ c ∈ p.1.toList, c.isAlpha

/-- Read somewhere by the grammar, each operand in its own place. -/
inductive Legible [Scalar α] (g : Grammar) : Term α → Prop
  | leaf {here rest : List Char} {t : Term α} : Leaf g here t rest → Legible g t
  | call {f : Func} {t : Term α} {rest : List Char} :
      g.nameAt? (f.name.toList ++ '(' :: rest) = none → Legible g t → Legible g (.call f t)
  | log {t u : Term α} {rest : List Char} :
      g.nameAt? ("log".toList ++ '(' :: rest) = none → Legible g t → Legible g u → Legible g (.log t u)
  | neg {t : Term α} : Legible g t → Legible g (.neg t)
  | op {o : BinOp} {l r : Term α} : Legible g l → Legible g r → Legible g (.op o l r)

/-! ## Names of letters -/

namespace Text

theorem isDigit_of_isAlpha {c : Char} (h : c.isAlpha) : c.isDigit = false := by
  simp only [Char.isAlpha, Char.isUpper, Char.isLower, Char.isDigit, Bool.or_eq_true, Bool.and_eq_true,
    decide_eq_true_eq, ge_iff_le, UInt32.le_iff_toNat_le, Bool.and_eq_false_iff, decide_eq_false_iff_not] at h ⊢
  simp at h ⊢
  omega

theorem isPlain_of_isAlpha {c : Char} (h : c.isAlpha) : isPlain c := by
  have hm : c ∉ ['.', '(', ')', ',', '+', '-', '*', '/', '^'] := by
    have : ∀ x ∈ ['.', '(', ')', ',', '+', '-', '*', '/', '^'], x.isAlpha = false := by simp
    intro hc
    rw [this c hc] at h
    cases h
  have hb : isBlank c = false := isBlank_of_isAlphanum (by simp [Char.isAlphanum, h])
  simp only [isPlain, hb, isDigit_of_isAlpha h, List.contains_eq_mem, hm, decide_false, Bool.or_self, Bool.not_false]

end Text

theorem Grammar.Speaks.calls {g : Grammar} {n : Names} (hg : g.Speaks n) : g.Calls n :=
  ⟨hg.names, fun p hp c hc => Text.isPlain_of_isAlpha (hg.letters p hp c hc)⟩

/-! ## What has been read -/

variable [Scalar α] {g : Grammar}

theorem Groups.legible {k : Grade} {v : List (Item α)} {t : Term α} (h : Groups k v t)
    (hv : ∀ u, .operand u ∈ v → Legible g u) : Legible g t := by
  induction h with
  | operand t => exact hv t (by simp)
  | chain _ ih => exact .op (ih fun u hu => hv u (by simp [hu])) (hv _ (by simp))
  | exponent _ _ ihl ihr => exact .op (ihl fun u hu => hv u (by simp [hu])) (.neg (ihr fun u hu => hv u (by simp [hu])))
  | sign _ ih => exact .neg (ih fun u hu => hv u (by simp [hu]))
  | factor _ _ _ ihl ihr | summand _ _ _ ihl ihr =>
    exact .op (ihl fun u hu => hv u (by simp [hu])) (ihr fun u hu => hv u (by simp [hu]))
  | power _ ih | signed _ ih | product _ ih | sum _ ih => exact ih hv

theorem Derives.legible {ordered : Bool} {p : Phrase α} {a b : List Char} (h : Derives g ordered p a b) :
    ∀ u, .operand u ∈ p.items → Legible g u := by
  induction h with
  | leaf _ _ hl => simpa [Phrase.items] using Legible.leaf hl
  | call _ hn _ ht _ ih => simpa [Phrase.items] using Legible.call hn (ht.legible ih)
  | log _ hn _ ht _ _ hu _ iht ihu => simpa [Phrase.items] using Legible.log hn (ht.legible iht) (hu.legible ihu)
  | group _ _ _ ht _ ih => simpa [Phrase.items] using ht.legible ih
  | plain _ ih => exact ih
  | minus _ _ _ _ ih => simpa [Phrase.items] using ih
  | single _ ih => exact ih
  | more _ _ _ ihl ihr =>
    intro u hu
    simp only [Phrase.items, List.mem_append, List.mem_cons, reduceCtorEq, false_or] at hu
    exact hu.elim (ihl u) (ihr u)

theorem Grammar.Reads.legible {ordered : Bool} {text : List Char} {t : Term α} (h : g.Reads ordered text t) :
    Legible g t := by
  obtain ⟨v, hv, ht⟩ := h
  exact ht.legible hv.legible

end Formula
