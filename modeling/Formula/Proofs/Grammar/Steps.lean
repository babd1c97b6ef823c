import Mathlib.Logic.Relation
import Formula.Proofs.Grammar.Feeding
import Formula.Proofs.Grammar.Operand

/-!
Steps of the machine, each from what the unread text begins with.
-/

namespace Formula

variable {α : Type}

/-! ## Spaces and marks -/

theorem skipSpaces_unread {c : Cursor} {here : List Char} (h : Spaced c.unread here) (hh : here.head? ≠ some ' ') :
    c.skipSpaces.unread = here := by
  obtain ⟨n, hn⟩ := h
  have ht : here.dropWhile (· == ' ') = here := by
    cases here with
    | nil => rfl
    | cons x rest =>
      have hx : x ≠ ' ' := by simpa using hh
      simp [hx]
  rw [Cursor.skipSpaces, Cursor.skipWhile, hn, List.dropWhile_append_of_pos (by simp), ht]

theorem spaced_skipSpaces (c : Cursor) : Spaced c.unread c.skipSpaces.unread := by
  have hs : ∀ x ∈ c.unread.takeWhile (· == ' '), x = ' ' := fun x hx => by
    simpa using List.all_eq_true.1 List.all_takeWhile x hx
  exact ⟨_, by rw [← List.eq_replicate_of_mem hs]; exact List.takeWhile_append_dropWhile.symm⟩

theorem head_skipSpaces (c : Cursor) : c.skipSpaces.unread.head? ≠ some ' ' := by
  intro h
  have := List.head?_dropWhile_not (· == ' ') c.unread
  rw [show c.unread.dropWhile (· == ' ') = c.skipSpaces.unread from rfl, h] at this
  simp at this

theorem symbolHere?_char {c : Cursor} {rest : List Char} (s : Symbol) (h : c.unread = s.char :: rest) :
    ∃ d, c.symbolHere? = some (s, d) ∧ d.unread = rest := by
  obtain ⟨read, unread⟩ := c
  simp only at h
  subst h
  exact ⟨⟨s.char :: read, rest⟩, by simp [Cursor.symbolHere?, Symbol.ofChar?_char], rfl⟩

theorem symbolHere?_eq_none {c : Cursor} {x : Char} {rest : List Char} (hc : c.unread = x :: rest)
    (h : c.symbolHere? = none) : Symbol.ofChar? x = none := by
  obtain ⟨read, unread⟩ := c
  simp only at hc
  subst hc
  simpa [Cursor.symbolHere?] using h

theorem Symbol.char_ne_space (s : Symbol) : s.char ≠ ' ' := by
  rcases s with _ | _ | _ | o <;> first | decide | (cases o <;> decide)

theorem skipSpaces_symbol {c : Cursor} {rest : List Char} (s : Symbol) (h : Spaced c.unread (s.char :: rest)) :
    ∃ d, c.skipSpaces.symbolHere? = some (s, d) ∧ d.unread = rest :=
  symbolHere?_char s (skipSpaces_unread h (by simpa using s.char_ne_space))

theorem atEnd_eq_false {c : Cursor} {here : List Char} (h : Spaced c.unread here) (hh : here ≠ []) :
    c.atEnd = false := by
  obtain ⟨n, hn⟩ := h
  rw [Cursor.atEnd, hn]
  simp [hh]

namespace Machine

variable [Scalar α] {g : Grammar} {c : Cursor} {l : Level α} {outer : List (Suspended α)} {here rest : List Char}

/-! ## Where an operand is due -/

theorem step_leaf {sign : Bool} {t : Term α} (h : Spaced c.unread here) (hh : here.head? ≠ some ' ')
    (ht : Leaf g here t rest) (hne : here ≠ []) :
    ∃ d, d.unread = rest ∧ step g ⟨c, l, outer, .operand sign⟩ = .next ⟨d, l.feed [.operand t], outer, .operator⟩ := by
  obtain ⟨tok, d, hd, hp, hr⟩ := Cursor.operand?_leaf ht (skipSpaces_unread h hh)
  refine ⟨d, hr, ?_⟩
  simp [step, stepOperand, atEnd_eq_false h hne, hd, Level.feed, Level.take, Level.push, hp]

theorem step_word {sign : Bool} {call : Call α} (hs : call.Starts)
    (h : Spaced c.unread (call.name.toList ++ '(' :: rest)) (hn : g.nameAt? (call.name.toList ++ '(' :: rest) = none)
    (hd : outer.length + 1 ≤ g.maxDepth) :
    ∃ d, d.unread = rest ∧
      step g ⟨c, l, outer, .operand sign⟩ = .next ⟨d, {}, ⟨l, call⟩ :: outer, .operand false⟩ := by
  have hh : (call.name.toList ++ '(' :: rest).head? ≠ some ' ' := by
    cases hw : call.name.toList with
    | nil => simp
    | cons x w =>
      rintro ⟨⟩
      exact (Call.head_name hs (x := ' ') (by rw [hw]; rfl)).2.2 (by simp)
  have hu := skipSpaces_unread h hh
  obtain ⟨d, hd', hr⟩ := Cursor.operand?_word hs hu (by rw [hu]; exact hn)
  obtain ⟨e, he, her⟩ := Cursor.accept?_head hr
  refine ⟨e, her, ?_⟩
  simp [step, stepOperand, atEnd_eq_false h (by simp), hd', enter, he, Nat.not_lt.2 hd]

theorem step_group {sign : Bool} (h : Spaced c.unread ('(' :: rest)) (hn : g.nameAt? ('(' :: rest) = none) :
    ∃ d, d.unread = rest ∧
      step g ⟨c, l, outer, .operand sign⟩ = .next ⟨d, l.openParen, outer, .operand false⟩ := by
  have hu := skipSpaces_unread h (by simp)
  have ho := Cursor.operand?_eq_none (α := α) hu (.inr rfl) (by rw [hu]; exact hn)
  obtain ⟨d, hd, hr⟩ := skipSpaces_symbol .opening h
  refine ⟨d, hr, ?_⟩
  simp [step, stepOperand, atEnd_eq_false h (by simp), ho, hd]

theorem step_minus (h : Spaced c.unread ('-' :: rest)) (hn : g.nameAt? ('-' :: rest) = none)
    (hs : rest.head? ≠ some ' ') :
    ∃ d, d.unread = rest ∧
      step g ⟨c, l, outer, .operand false⟩ = .next ⟨d, l.minus, outer, .operand true⟩ := by
  have hu := skipSpaces_unread h (by simp)
  have ho := Cursor.operand?_eq_none (α := α) hu (.inl rfl) (by rw [hu]; exact hn)
  obtain ⟨d, hd, hr⟩ := skipSpaces_symbol (.op .sub) h
  have hp : d.peek? ≠ some ' ' := by rwa [Cursor.peek?, hr]
  refine ⟨d, hr, ?_⟩
  simp [step, stepOperand, atEnd_eq_false h (by simp), ho, hd, hp]

/-! ## Where an operator is due -/

theorem step_operator {o : BinOp} (h : Spaced c.unread (o.symbol :: rest)) :
    ∃ d, d.unread = rest ∧
      step g ⟨c, l, outer, .operator⟩ = .next ⟨d, l.operator o, outer, .operand false⟩ := by
  obtain ⟨d, hd, hr⟩ := skipSpaces_symbol (.op o) h
  refine ⟨d, hr, ?_⟩
  simp [step, stepOperator, atEnd_eq_false h (by simp), hd]

theorem step_close (h : Spaced c.unread (')' :: rest)) (ho : l.opened ≠ 0) :
    ∃ d, d.unread = rest ∧ step g ⟨c, l, outer, .operator⟩ = .next ⟨d, l.closeParen, outer, .operator⟩ := by
  obtain ⟨d, hd, hr⟩ := skipSpaces_symbol .closing h
  refine ⟨d, hr, ?_⟩
  simp [step, stepOperator, atEnd_eq_false h (by simp), hd, ho]

theorem step_leave {s : Symbol} (hs : s = .closing ∨ s = .comma) (h : Spaced c.unread (s.char :: rest))
    (ho : l.opened = 0) : step g ⟨c, l, outer, .operator⟩ = leave g c.skipSpaces l.finish outer := by
  obtain ⟨d, hd, -⟩ := skipSpaces_symbol s h
  rcases hs with rfl | rfl <;> simp [step, stepOperator, atEnd_eq_false h (by simp), hd, ho]

theorem step_unary {l' : Level α} {f : Func} (h : Spaced c.unread (')' :: rest)) (ho : l.opened = 0) :
    ∃ d, d.unread = rest ∧
      step g ⟨c, l, ⟨l', .unary f⟩ :: outer, .operator⟩ = .next ⟨d, l'.push (.call f l.finish), outer, .operator⟩ := by
  obtain ⟨d, hd, hr⟩ := Cursor.accept?_head (skipSpaces_unread h (by simp))
  refine ⟨d, hr, ?_⟩
  rw [step_leave (.inl rfl) h ho]
  simp [leave, resume, hd]

theorem step_base {l' : Level α} (h : Spaced c.unread (',' :: rest)) (ho : l.opened = 0)
    (hd : outer.length + 1 ≤ g.maxDepth) :
    ∃ d, d.unread = rest ∧ step g ⟨c, l, ⟨l', .logBase⟩ :: outer, .operator⟩ =
      .next ⟨d, {}, ⟨l', .logArgument l.finish⟩ :: outer, .operand false⟩ := by
  obtain ⟨d, hd', hr⟩ := Cursor.accept?_head (skipSpaces_unread h (by simp))
  refine ⟨d, hr, ?_⟩
  rw [step_leave (.inr rfl) h ho]
  simp [leave, enter, hd', Nat.not_lt.2 hd]

theorem step_argument {l' : Level α} {base : Sequence α} (h : Spaced c.unread (')' :: rest)) (ho : l.opened = 0) :
    ∃ d, d.unread = rest ∧ step g ⟨c, l, ⟨l', .logArgument base⟩ :: outer, .operator⟩ =
      .next ⟨d, l'.push (.log base l.finish), outer, .operator⟩ := by
  obtain ⟨d, hd, hr⟩ := Cursor.accept?_head (skipSpaces_unread h (by simp))
  refine ⟨d, hr, ?_⟩
  rw [step_leave (.inl rfl) h ho]
  simp [leave, resume, hd]

end Machine

end Formula
