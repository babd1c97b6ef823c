import Formula.Proofs.Grammar.Steps

/-!
All that a step can do. Each case says what the step finds in the text and what it makes of the level, so an invariant
of the machine is a case analysis over these and never opens the step itself.
-/

namespace Formula

variable {α : Type}

namespace Machine

variable {g : Grammar} {c d : Cursor} {l : Level α} {outer : List (Suspended α)} {n : Machine α}

theorem enter_ne_done {x : Char} {call : Call α} {s : Sequence α} {rest : Cursor} :
    enter g c x l call outer ≠ .done s rest := by
  unfold enter
  split
  · simp
  · split <;> simp

theorem resume_ne_done {call : Call α} {t : Token α} {s : Sequence α} {rest : Cursor} :
    resume c l call t outer ≠ .done s rest := by
  unfold resume
  split <;> simp

theorem done_of_leave {s s' : Sequence α} {rest : Cursor} (h : leave g c s outer = .done s' rest) :
    outer = [] ∧ s' = s ∧ rest = c := by
  unfold leave at h
  split at h
  · cases h
    exact ⟨rfl, rfl, rfl⟩
  · exact absurd h resume_ne_done
  · exact absurd h enter_ne_done
  · exact absurd h resume_ne_done

theorem done_of_operator {m : Machine α} {s : Sequence α} {rest : Cursor} (h : stepOperator g m = .done s rest) :
    (m.outer = [] ∧ m.level.opened = 0 ∧ s = m.level.finish) ∧ rest = m.cursor.skipSpaces ∧ rest.unread ≠ [] := by
  unfold stepOperator at h
  simp only at h
  split at h
  · next hd =>
    split at h
    · next ho =>
      obtain ⟨hn, rfl, rfl⟩ := done_of_leave h
      exact ⟨⟨hn, ho, rfl⟩, rfl, by simp [(Cursor.symbolHere?_moves hd).unread]⟩
    · simp at h
  · next hd =>
    split at h
    · next ho =>
      obtain ⟨hn, rfl, rfl⟩ := done_of_leave h
      exact ⟨⟨hn, ho, rfl⟩, rfl, by simp [(Cursor.symbolHere?_moves hd).unread]⟩
    · simp at h
  · simp at h
  · simp at h
  · simp at h

variable [Scalar α]

inductive Effect (g : Grammar) : Machine α → Machine α → Prop
  | leaf {c d : Cursor} {l : Level α} {outer : List (Suspended α)} {sign : Bool} {here : List Char} {t : Term α} :
      Spaced c.unread here → here.head? ≠ some ' ' → Leaf g here t d.unread →
      Effect g ⟨c, l, outer, .operand sign⟩ ⟨d, l.feed [.operand t], outer, .operator⟩
  | word {c d : Cursor} {l : Level α} {outer : List (Suspended α)} {sign : Bool} {call : Call α} :
      call.Starts → Spaced c.unread (call.name.toList ++ '(' :: d.unread) →
      g.nameAt? (call.name.toList ++ '(' :: d.unread) = none → outer.length + 1 ≤ g.maxDepth →
      Effect g ⟨c, l, outer, .operand sign⟩ ⟨d, {}, ⟨l, call⟩ :: outer, .operand false⟩
  | group {c d : Cursor} {l : Level α} {outer : List (Suspended α)} {sign : Bool} :
      Spaced c.unread ('(' :: d.unread) → g.nameAt? ('(' :: d.unread) = none →
      Effect g ⟨c, l, outer, .operand sign⟩ ⟨d, l.openParen, outer, .operand false⟩
  | minus {c d : Cursor} {l : Level α} {outer : List (Suspended α)} :
      Spaced c.unread ('-' :: d.unread) → g.nameAt? ('-' :: d.unread) = none → d.unread.head? ≠ some ' ' →
      Effect g ⟨c, l, outer, .operand false⟩ ⟨d, l.minus, outer, .operand true⟩
  | operator {c d : Cursor} {l : Level α} {outer : List (Suspended α)} {o : BinOp} :
      Spaced c.unread (o.symbol :: d.unread) →
      Effect g ⟨c, l, outer, .operator⟩ ⟨d, l.operator o, outer, .operand false⟩
  | close {c d : Cursor} {l : Level α} {outer : List (Suspended α)} :
      Spaced c.unread (')' :: d.unread) → l.opened ≠ 0 →
      Effect g ⟨c, l, outer, .operator⟩ ⟨d, l.closeParen, outer, .operator⟩
  | unary {c d : Cursor} {l l' : Level α} {outer : List (Suspended α)} {f : Func} :
      Spaced c.unread (')' :: d.unread) → l.opened = 0 →
      Effect g ⟨c, l, ⟨l', .unary f⟩ :: outer, .operator⟩ ⟨d, l'.push (.call f l.finish), outer, .operator⟩
  | base {c d : Cursor} {l l' : Level α} {outer : List (Suspended α)} :
      Spaced c.unread (',' :: d.unread) → l.opened = 0 → outer.length + 1 ≤ g.maxDepth →
      Effect g ⟨c, l, ⟨l', .logBase⟩ :: outer, .operator⟩
        ⟨d, {}, ⟨l', .logArgument l.finish⟩ :: outer, .operand false⟩
  | argument {c d : Cursor} {l l' : Level α} {outer : List (Suspended α)} {base : Sequence α} :
      Spaced c.unread (')' :: d.unread) → l.opened = 0 →
      Effect g ⟨c, l, ⟨l', .logArgument base⟩ :: outer, .operator⟩
        ⟨d, l'.push (.log base l.finish), outer, .operator⟩

theorem spaced_accept? {x : Char} (hs : Spaced c.unread d.unread) {e : Cursor} (h : d.accept? x = some e) :
    Spaced c.unread (x :: e.unread) := by
  rwa [(Cursor.accept?_moves h).unread] at hs

theorem spaced_symbol {s : Symbol} (h : c.skipSpaces.symbolHere? = some (s, d)) :
    Spaced c.unread (s.char :: d.unread) := by
  have hs := spaced_skipSpaces c
  rwa [(Cursor.symbolHere?_moves h).unread] at hs

theorem effect_of_leave (hs : Spaced c.unread d.unread) (ho : l.opened = 0) (h : leave g d l.finish outer = .next n) :
    Effect g ⟨c, l, outer, .operator⟩ n := by
  unfold leave at h
  split at h
  · simp at h
  · unfold resume at h
    split at h
    · simp at h
    · next he =>
      cases h
      exact .unary (spaced_accept? hs he) ho
  · unfold enter at h
    split at h
    · simp at h
    · next he =>
      split at h
      · simp at h
      · next hd =>
        cases h
        exact .base (spaced_accept? hs he) ho (Nat.not_lt.1 hd)
  · unfold resume at h
    split at h
    · simp at h
    · next he =>
      cases h
      exact .argument (spaced_accept? hs he) ho

theorem effect_of_operand {sign : Bool} (h : stepOperand g ⟨c, l, outer, .operand sign⟩ sign = .next n) :
    Effect g ⟨c, l, outer, .operand sign⟩ n := by
  have hs := spaced_skipSpaces c
  unfold stepOperand at h
  simp only at h
  split at h
  · simp at h
  · next tok d hd =>
    cases h
    obtain ⟨t, ht, hp⟩ := Cursor.leaf_of_operand? hd
    have hl : l.push tok = l.feed [.operand t] := by simp [Level.push, Level.feed, Level.take, hp]
    rw [hl]
    exact .leaf hs (head_skipSpaces c) ht
  · next call d hd =>
    obtain ⟨hc, hu, hn⟩ := Cursor.word_of_operand? hd
    unfold enter at h
    split at h
    · simp at h
    · next e he =>
      split at h
      · simp at h
      · next hdepth =>
        cases h
        rw [hu, (Cursor.accept?_moves he).unread] at hs hn
        exact .word hc hs hn (Nat.not_lt.1 hdepth)
  · next hd =>
    have hn := Cursor.nameAt?_of_operand?_none hd
    split at h
    · next d hd =>
      split at h
      · simp at h
      · next hb =>
        cases h
        simp only [Bool.or_eq_true, beq_iff_eq, not_or, Bool.not_eq_true] at hb
        obtain ⟨rfl, hb⟩ := hb
        rw [(Cursor.symbolHere?_moves hd).unread] at hn
        exact .minus (spaced_symbol hd) hn hb
    · next d hd =>
      cases h
      rw [(Cursor.symbolHere?_moves hd).unread] at hn
      exact .group (spaced_symbol hd) hn
    · simp at h
    · simp at h

theorem effect_of_operator (h : stepOperator g ⟨c, l, outer, .operator⟩ = .next n) :
    Effect g ⟨c, l, outer, .operator⟩ n := by
  have hs := spaced_skipSpaces c
  unfold stepOperator at h
  simp only at h
  split at h
  · next hd =>
    split at h
    · next ho => exact effect_of_leave hs ho h
    · next ho =>
      cases h
      exact .close (spaced_symbol hd) ho
  · split at h
    · next ho => exact effect_of_leave hs ho h
    · simp at h
  · next hd =>
    cases h
    exact .operator (spaced_symbol hd)
  · simp at h
  · simp at h

theorem effect_of_step {m : Machine α} (h : step g m = .next n) : Effect g m n := by
  obtain ⟨c, l, outer, _ | _⟩ := m
  · simp only [step] at h
    split at h
    · simp at h
    · exact effect_of_operand h
  · simp only [step] at h
    split at h
    · split at h
      · next ho => exact effect_of_leave ⟨0, rfl⟩ ho h
      · simp at h
    · exact effect_of_operator h

/-! ## The end of a run -/

theorem stepOperand_ne_done {m : Machine α} {sign : Bool} {s : Sequence α} {rest : Cursor} :
    stepOperand g m sign ≠ .done s rest := by
  unfold stepOperand
  simp only
  split
  · simp
  · simp
  · exact enter_ne_done
  · split
    · split <;> simp
    · simp
    · simp
    · simp

/-- A run ends where an operator is due, on the outermost level and with all parens closed. -/
theorem done_of_step {m : Machine α} {s : Sequence α} {rest : Cursor} (h : step g m = .done s rest) :
    (m.outer = [] ∧ m.level.opened = 0 ∧ s = m.level.finish) ∧ m.expecting = .operator ∧
      (rest.unread = [] → m.cursor.unread = []) ∧ ∃ w, m.cursor.Moves w rest := by
  unfold step at h
  split at h
  · split at h
    · simp at h
    · exact absurd h stepOperand_ne_done
  · next he =>
    split at h
    · next hc =>
      split at h
      · next ho =>
        obtain ⟨hn, rfl, rfl⟩ := done_of_leave h
        exact ⟨⟨hn, ho, rfl⟩, he, id, [], .refl _⟩
      · simp at h
    · obtain ⟨hm, rfl, hr⟩ := done_of_operator h
      exact ⟨hm, he, fun hn => absurd hn hr, skipSpaces_moves m.cursor⟩

/-- The last step of a run starts where all that every step preserves holds. -/
theorem exists_last {P : Machine α → Prop} (hstep : ∀ m n, P m → step g m = .next n → P n) {m : Machine α} (hm : P m) :
    ∃ n, P n ∧ ((∃ s rest, step g n = .done s rest ∧ run g m = .ok (s, rest)) ∨
      ∃ e, step g n = .failed e ∧ run g m = .error e) := by
  fun_induction run g m with
  | case1 m n hn ih => exact ih (hstep m n hm hn)
  | case2 m s rest hd => exact ⟨m, hm, .inl ⟨s, rest, hd, rfl⟩⟩
  | case3 m e he => exact ⟨m, hm, .inr ⟨e, he, rfl⟩⟩

theorem run_induct {P : Machine α → Prop} (hstep : ∀ m n, P m → step g m = .next n → P n) {m : Machine α}
    {s : Sequence α} {rest : Cursor} (hm : P m) (h : run g m = .ok (s, rest)) :
    ∃ n, P n ∧ step g n = .done s rest := by
  obtain ⟨n, hn, ⟨s', rest', hd, hr⟩ | ⟨e, -, hr⟩⟩ := exists_last hstep hm
  · rw [h] at hr
    cases hr
    exact ⟨n, hn, hd⟩
  · rw [h] at hr
    cases hr

end Machine

end Formula
