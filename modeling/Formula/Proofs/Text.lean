import Mathlib
import Formula.Text.Blank

/-!
Texts as lists of characters: blanks at their ends, parens that match, and the pairs they make.
-/

namespace Formula.Text

variable {a b c d cs : List Char}

/-! ## Ends -/

theorem isBlank_of_isAlphanum {c : Char} (h : c.isAlphanum) : isBlank c = false := by
  simp only [Char.isAlphanum, Char.isAlpha, Char.isUpper, Char.isLower, Char.isDigit, Bool.or_eq_true, Bool.and_eq_true,
    decide_eq_true_eq, ge_iff_le, UInt32.le_iff_toNat_le] at h
  have hc : c.toNat = c.val.toNat := rfl
  simp only [isBlank, Bool.or_eq_false_iff, Bool.and_eq_false_iff, decide_eq_false_iff_not, beq_eq_false_iff_ne]
  simp at h
  omega

/-- Not empty, and neither end is blank. -/
def Tight (cs : List Char) : Prop :=
  (∃ x, cs.head? = some x ∧ isBlank x = false) ∧ ∃ x, cs.getLast? = some x ∧ isBlank x = false

namespace Tight

theorem append (ha : Tight a) (m : List Char) (hb : Tight b) : Tight (a ++ m ++ b) := by
  obtain ⟨x, hx, hxb⟩ := ha.1
  obtain ⟨y, hy, hyb⟩ := hb.2
  exact ⟨⟨x, by simp [hx], hxb⟩, ⟨y, by simp [hy], hyb⟩⟩

theorem of_forall (hne : cs ≠ []) (h : ∀ x ∈ cs, isBlank x = false) : Tight cs :=
  ⟨⟨cs.head hne, List.head?_eq_some_head hne, h _ (List.head_mem hne)⟩,
    ⟨cs.getLast hne, List.getLast?_eq_some_getLast hne, h _ (List.getLast_mem hne)⟩⟩

theorem ne_nil (h : Tight cs) : cs ≠ [] := by
  rintro rfl
  obtain ⟨x, hx, -⟩ := h.1
  cases hx

theorem head_ne_space (h : Tight cs) (rest : List Char) : (cs ++ rest).head? ≠ some ' ' := by
  obtain ⟨x, hx, hb⟩ := h.1
  simp only [List.head?_append, hx, Option.some_or, ne_eq, Option.some.injEq]
  rintro rfl
  cases hb

theorem dropWhile (h : ∃ x, cs.head? = some x ∧ isBlank x = false) (ha : ∀ x ∈ a, isBlank x) :
    (a ++ cs).dropWhile isBlank = cs := by
  obtain ⟨x, hx, hb⟩ := h
  rw [List.dropWhile_append_of_pos ha]
  cases cs with
  | nil => cases hx
  | cons y cs =>
    obtain rfl := Option.some.inj hx
    exact List.dropWhile_cons_of_neg (by simp [hb])

/-- Blanks around it are trimmed, and nothing else. -/
theorem trim_append (h : Tight cs) (ha : ∀ x ∈ a, isBlank x) (hb : ∀ x ∈ b, isBlank x) :
    Text.trim (a ++ cs ++ b) = cs := by
  have hstart : trimStart (a ++ cs ++ b) = cs ++ b := by
    obtain ⟨x, hx, hxb⟩ := h.1
    rw [trimStart, List.append_assoc]
    exact dropWhile ⟨x, by simp [hx], hxb⟩ ha
  obtain ⟨x, hx, hxb⟩ := h.2
  rw [Text.trim, hstart, trimEnd, List.reverse_append, dropWhile ⟨x, by simpa using hx, hxb⟩ (by simpa using hb),
    List.reverse_reverse]

theorem trim (h : Tight cs) : trim cs = cs := by
  simpa using h.trim_append (a := []) (b := []) (by simp) (by simp)

end Tight

/-- Tight as well if enclosed, whatever stands between the parens. -/
theorem tight_enclosed (m : List Char) : Tight ('(' :: m ++ [')']) := by
  have ho : Tight ['('] := .of_forall (by simp) (by simp; rfl)
  have hc : Tight [')'] := .of_forall (by simp) (by simp; rfl)
  exact ho.append m hc

theorem exists_trim (cs : List Char) :
    ∃ a b, cs = a ++ trim cs ++ b ∧ (∀ x ∈ a, isBlank x) ∧ ∀ x ∈ b, isBlank x := by
  refine ⟨cs.takeWhile isBlank, ((trimStart cs).reverse.takeWhile isBlank).reverse, ?_, ?_, ?_⟩
  · rw [trim, trimEnd, List.append_assoc, ← List.reverse_append, List.takeWhile_append_dropWhile, List.reverse_reverse,
      trimStart, List.takeWhile_append_dropWhile]
  · exact fun x hx => List.all_eq_true.1 List.all_takeWhile x hx
  · exact fun x hx => List.all_eq_true.1 List.all_takeWhile x (List.mem_reverse.1 hx)

theorem getLast?_trim {x : Char} (h : (trim cs).getLast? = some x) : isBlank x = false := by
  rw [trim, trimEnd, List.getLast?_reverse] at h
  simpa [h] using List.head?_dropWhile_not isBlank (trimStart cs).reverse

/-! ## Parens -/

/-- How many parens are open behind `x` where `n` are before; `none` if none is left to close. -/
def nesting (n : Nat) (x : Char) : Option Nat :=
  if x = '(' then some (n + 1) else if x = ')' then (if n = 0 then none else some (n - 1)) else some n

/-- How many parens are open at the end where `n` are at the start; `none` as soon as one closes that is not open. -/
def unclosed (n : Nat) : List Char → Option Nat
  | [] => some n
  | x :: cs => (nesting n x).bind fun m => unclosed m cs

theorem unclosed_append (n : Nat) (a b : List Char) :
    unclosed n (a ++ b) = (unclosed n a).bind fun m => unclosed m b := by
  induction a generalizing n with
  | nil => rfl
  | cons x a ih => simp [unclosed, ih, Option.bind_assoc]

theorem unclosed_of_forall (n : Nat) (h : ∀ x ∈ cs, x ≠ '(' ∧ x ≠ ')') : unclosed n cs = some n := by
  induction cs with
  | nil => rfl
  | cons x cs ih =>
    obtain ⟨ho, hc⟩ := h x (by simp)
    simp [unclosed, nesting, ho, hc, ih fun y hy => h y (by simp [hy])]

theorem unclosed_add {n m : Nat} (h : unclosed n cs = some m) (k : Nat) : unclosed (n + k) cs = some (m + k) := by
  induction cs generalizing n with
  | nil => simpa [unclosed] using h
  | cons x cs ih =>
    obtain ⟨i, hi, h⟩ := Option.bind_eq_some_iff.1 h
    have hk : nesting (n + k) x = some (i + k) := by
      unfold nesting at hi ⊢
      split at hi
      · obtain rfl := Option.some.inj hi
        rw [if_pos ‹_›, Nat.add_right_comm]
      · split at hi
        · split at hi
          · cases hi
          · obtain rfl := Option.some.inj hi
            rw [if_neg ‹_›, if_pos ‹_›, if_neg (by omega), Nat.sub_add_comm (by omega)]
        · obtain rfl := Option.some.inj hi
          rw [if_neg ‹_›, if_neg ‹_›]
    rw [unclosed, hk, Option.bind_some, ih h]

/-- Every paren has its counterpart. -/
def Matched (cs : List Char) : Prop := unclosed 0 cs = some 0

instance : DecidablePred Matched := fun cs => inferInstanceAs (Decidable (unclosed 0 cs = some 0))

namespace Matched

theorem unclosed (h : Matched cs) (n : Nat) : Text.unclosed n cs = some n := by
  simpa using unclosed_add h n

theorem of_forall (h : ∀ x ∈ cs, x ≠ '(' ∧ x ≠ ')') : Matched cs := unclosed_of_forall 0 h

theorem spaces (k : Nat) : Matched (List.replicate k ' ') := by
  refine .of_forall fun x hx => ?_
  rw [List.eq_of_mem_replicate hx]
  decide

theorem append (ha : Matched a) (hb : Matched b) : Matched (a ++ b) := by
  rw [Matched, unclosed_append, ha, Option.bind_some, hb]

theorem enclosed (h : Matched cs) : Matched ('(' :: cs ++ [')']) := by
  simp [Matched, Text.unclosed, nesting, unclosed_append, h.unclosed]

end Matched

/-- Neither blanks nor parens. -/
structure Word (w : List Char) : Prop where
  ne_nil : w ≠ []
  solid : ∀ x ∈ w, isBlank x = false ∧ x ≠ '(' ∧ x ≠ ')'

namespace Word

theorem tight (h : Word cs) : Tight cs := .of_forall h.ne_nil fun x hx => (h.solid x hx).1

theorem matched (h : Word cs) : Matched cs := .of_forall fun x hx => (h.solid x hx).2

theorem of_isAlphanum (hne : cs ≠ []) (h : ∀ x ∈ cs, x.isAlphanum) : Word cs := by
  refine ⟨hne, fun x hx => ⟨isBlank_of_isAlphanum (h x hx), ?_, ?_⟩⟩
  · rintro rfl
    exact absurd (h _ hx) (by decide)
  · rintro rfl
    exact absurd (h _ hx) (by decide)

theorem of_all_isAlphanum {w : String} (h : w.toList ≠ [] ∧ w.toList.all Char.isAlphanum) : Word w.toList :=
  .of_isAlphanum h.1 (List.all_eq_true.1 h.2)

end Word

theorem eq_of_unclosed {n : Nat} (ha : unclosed n a = some 0) (hb : unclosed n b = some 0)
    (h : a ++ ')' :: c = b ++ ')' :: d) : a = b ∧ c = d := by
  have hclose : ∀ cs, unclosed 0 (')' :: cs) ≠ some 0 := by simp [unclosed, nesting]
  induction a generalizing b n with
  | nil =>
    obtain rfl : n = 0 := by simpa [unclosed] using ha
    cases b with
    | nil => simpa using h
    | cons y b =>
      obtain ⟨rfl, -⟩ := List.cons.inj h
      exact absurd hb (hclose b)
  | cons x a ih =>
    cases b with
    | nil =>
      obtain rfl : n = 0 := by simpa [unclosed] using hb
      obtain ⟨rfl, -⟩ := List.cons.inj h
      exact absurd ha (hclose a)
    | cons y b =>
      obtain ⟨rfl, htail⟩ := List.cons.inj h
      obtain ⟨m, hm, ha⟩ := Option.bind_eq_some_iff.1 ha
      obtain ⟨m', hm', hb⟩ := Option.bind_eq_some_iff.1 hb
      obtain rfl := Option.some.inj (hm.symm.trans hm')
      obtain ⟨rfl, rfl⟩ := ih ha hb htail
      exact ⟨rfl, rfl⟩

theorem not_isBlank_paren {x : Char} (h : isBlank x) : x ≠ '(' ∧ x ≠ ')' := by
  constructor
  · rintro rfl
    cases h
  · rintro rfl
    cases h

theorem unclosed_trim (n : Nat) (cs : List Char) : unclosed n (trim cs) = unclosed n cs := by
  obtain ⟨a, b, hcs, ha, hb⟩ := exists_trim cs
  have ha' := unclosed_of_forall n fun x hx => not_isBlank_paren (ha x hx)
  have hb' := fun m => unclosed_of_forall m fun x hx => not_isBlank_paren (hb x hx)
  conv_rhs => rw [hcs, unclosed_append, unclosed_append, ha', Option.bind_some, funext hb', Option.bind_fun_some]

/-! ## Pairs -/

variable {m w : List Char}

/-- A pair of parens in `cs`: `a` stands before it, `m` in it and `b` behind it. -/
structure Pair (cs a m b : List Char) : Prop where
  text : cs = a ++ '(' :: m ++ ')' :: b
  matched : Matched m

theorem not_matched_open {j : Nat} (h : unclosed 0 c = some j) : ¬ Matched (a ++ '(' :: c) := by
  intro hm
  rw [Matched, unclosed_append] at hm
  obtain ⟨k, -, hk⟩ := Option.bind_eq_some_iff.1 hm
  have hopen : unclosed (0 + (k + 1)) c = some 0 := by simpa [unclosed, nesting] using hk
  rw [unclosed_add h] at hopen
  cases hopen

namespace Pair

theorem mem (h : Pair cs a m b) : '(' ∈ cs := by
  rw [h.text]
  simp

-- A pair that began in `c` and ended behind it would leave a paren of `c` open.
theorem of_append (hc : Matched c) (h : Pair (c ++ d) a m b) :
    (∃ b', Pair c a m b' ∧ b = b' ++ d) ∨ ∃ a', Pair d a' m b ∧ a = c ++ a' := by
  obtain ⟨ht, hm⟩ := h
  rw [List.append_assoc, List.cons_append] at ht
  rcases List.append_eq_append_iff.1 ht with ⟨z, rfl, rfl⟩ | ⟨z, rfl, hz⟩
  · exact .inr ⟨z, ⟨by simp, hm⟩, rfl⟩
  cases z with
  | nil => exact .inr ⟨[], ⟨by simpa using hz.symm, hm⟩, by simp⟩
  | cons x z =>
    obtain ⟨rfl, htail⟩ := List.cons.inj hz
    rcases List.append_eq_append_iff.1 htail with ⟨y, rfl, hy⟩ | ⟨y, rfl, -⟩
    · cases y with
      | nil =>
        rw [List.append_nil] at hc
        exact absurd hc (not_matched_open hm)
      | cons x y =>
        obtain ⟨rfl, rfl⟩ := List.cons.inj hy
        exact .inl ⟨y, ⟨by simp, hm⟩, rfl⟩
    · rw [Matched, unclosed_append] at hm
      obtain ⟨j, hj, -⟩ := Option.bind_eq_some_iff.1 hm
      exact absurd hc (not_matched_open hj)

/-- Not in what has no parens. -/
theorem behind (hw : ∀ x ∈ w, x ≠ '(' ∧ x ≠ ')') (h : Pair (w ++ c) a m b) : ∃ a', Pair c a' m b ∧ a = w ++ a' := by
  rcases h.of_append (.of_forall hw) with ⟨b', hp, -⟩ | hp
  · exact absurd rfl (hw '(' hp.mem).1
  · exact hp

theorem around (hc : Matched c) (hw : ∀ x ∈ w, x ≠ '(' ∧ x ≠ ')') (h : Pair (c ++ w ++ d) a m b) :
    (∃ b', Pair c a m b' ∧ b = b' ++ w ++ d) ∨ ∃ a', Pair d a' m b ∧ a = c ++ w ++ a' := by
  rw [List.append_assoc] at h
  rcases h.of_append hc with ⟨b', hp, rfl⟩ | ⟨a', hp, rfl⟩
  · exact .inl ⟨b', hp, by simp⟩
  · obtain ⟨z, hz, rfl⟩ := hp.behind hw
    exact .inr ⟨z, hz, by simp⟩

/-- The pair at the ends, or one between. -/
theorem of_enclosed (hc : Matched c) (h : Pair ('(' :: c ++ [')']) a m b) :
    (a = [] ∧ m = c ∧ b = []) ∨ ∃ a' b', Pair c a' m b' ∧ a = '(' :: a' ∧ b = b' ++ [')'] := by
  cases a with
  | nil =>
    obtain ⟨rfl, rfl⟩ := eq_of_unclosed hc h.matched (List.cons.inj h.text).2
    exact .inl ⟨rfl, rfl, rfl⟩
  | cons x a =>
    obtain ⟨rfl, ht⟩ := List.cons.inj h.text
    rcases of_append hc ⟨ht, h.matched⟩ with ⟨b', hp, rfl⟩ | ⟨a', hp, -⟩
    · exact .inr ⟨a, b', hp, rfl, rfl⟩
    · exact absurd hp.mem (by simp)

end Pair

end Formula.Text
