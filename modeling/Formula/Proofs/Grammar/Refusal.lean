import Formula.Proofs.Grammar.Effect

/-!
All the ways a step can fail. Each case says what stands in the text behind spaces, and which position the error names.
-/

namespace Formula

variable {α : Type}

theorem Symbol.ofChar?_of_mem {x : Char} (h : x ∈ ['(', '-']) :
    ofChar? x = some .opening ∨ ofChar? x = some (.op .sub) := by
  simp only [List.mem_cons, List.not_mem_nil, or_false] at h
  rcases h with rfl | rfl
  · exact .inl rfl
  · exact .inr rfl

namespace Machine

inductive Refused (g : Grammar) (m : Machine α) : ParseError → Prop
  | ending : m.cursor.skipSpaces.unread = [] → Refused g m .unexpectedEnd
  | point {n : DanglingPoint} : n.pos = m.cursor.skipSpaces.pos → n.lexeme.toList <+: m.cursor.skipSpaces.unread →
      Refused g m (.malformedNumber n)
  | call {name : String} {pos : Nat} : Refused g m (.badCall name pos)
  | deep : g.maxDepth ≤ m.outer.length → Refused g m (.tooDeep g.maxDepth)
  | minus {sign : Bool} {rest : List Char} : m.expecting = .operand sign → m.cursor.skipSpaces.unread = '-' :: rest →
      sign ∨ rest.head? = some ' ' → Refused g m (.badMinus m.cursor.skipSpaces.pos)
  | operand {x : Char} {rest : List Char} : m.cursor.skipSpaces.unread = x :: rest → x ∉ ['(', '-'] →
      ¬ g.Begins (x :: rest) → Refused g m (.expectedOperand m.cursor.skipSpaces.pos)
  | operator {x : Char} {rest : List Char} : m.expecting = .operator → m.cursor.skipSpaces.unread = x :: rest →
      Symbol.ofChar? x = none → Refused g m (.expectedOperator m.cursor.skipSpaces.pos)
  | blank : m.cursor.unread ≠ [] → m.cursor.skipSpaces.unread = [] →
      Refused g m (.expectedOperator m.cursor.skipSpaces.pos)
  | paren {rest : List Char} : m.expecting = .operator → m.cursor.skipSpaces.unread = '(' :: rest →
      Refused g m (.expectedOperator (m.cursor.skipSpaces.pos + 1))
  | comma {rest : List Char} : m.cursor.skipSpaces.unread = ',' :: rest → m.level.opened ≠ 0 →
      Refused g m (.strayComma m.cursor.skipSpaces.pos)
  | unclosed : m.cursor.unread = [] → m.level.opened ≠ 0 → Refused g m .missingClosing

variable {g : Grammar} {m : Machine α} {c : Cursor} {l : Level α} {outer : List (Suspended α)} {e : ParseError}

theorem refused_of_enter {x : Char} {call : Call α} (hd : outer.length ≤ m.outer.length)
    (h : enter g c x l call outer = .failed e) : Refused g m e := by
  unfold enter at h
  split at h
  · cases h
    exact .call
  · split at h
    · cases h
      exact .deep (by omega)
    · cases h

theorem refused_of_resume {call : Call α} {t : Token α} (h : resume c l call t outer = .failed e) : Refused g m e := by
  unfold resume at h
  split at h
  · cases h
    exact .call
  · cases h

theorem refused_of_leave {s : Sequence α} (h : leave g c s m.outer = .failed e) : Refused g m e := by
  generalize ho : m.outer = outer at h
  unfold leave at h
  split at h
  · cases h
  · exact refused_of_resume h
  · exact refused_of_enter (by simp [ho]) h
  · exact refused_of_resume h

theorem refused_of_operator (he : m.expecting = .operator) (hc : m.cursor.unread ≠ [])
    (h : stepOperator g m = .failed e) : Refused g m e := by
  unfold stepOperator at h
  simp only at h
  split at h
  · split at h
    · exact refused_of_leave h
    · cases h
  · next hd =>
    split at h
    · exact refused_of_leave h
    · next ho =>
      cases h
      exact .comma (Cursor.symbolHere?_moves hd).unread ho
  · cases h
  · next hd =>
    cases h
    have hm := Cursor.symbolHere?_moves hd
    rw [hm.pos_eq]
    exact .paren he hm.unread
  · next hd =>
    cases h
    cases hu : m.cursor.skipSpaces.unread with
    | nil => exact .blank hc hu
    | cons x rest => exact .operator he hu (symbolHere?_eq_none hu hd)

variable [Scalar α]

theorem refused_of_operand {sign : Bool} (he : m.expecting = .operand sign) (h : stepOperand g m sign = .failed e) :
    Refused g m e := by
  unfold stepOperand at h
  simp only at h
  split at h
  · next hn =>
    cases h
    obtain ⟨n, rfl, hp, hl⟩ := Cursor.malformed_of_operand? hn
    exact .point hp hl
  · cases h
  · exact refused_of_enter (Nat.le_refl _) h
  · next hn =>
    have hb := Cursor.not_begins_of_operand? hn
    split at h
    · next d hd =>
      split at h
      · next hs =>
        cases h
        have hu := (Cursor.symbolHere?_moves hd).unread
        exact .minus he hu (by simpa [Cursor.peek?] using hs)
      · cases h
    · cases h
    · next p hsub hopen hd =>
      cases h
      obtain ⟨s, d⟩ := p
      have hu := (Cursor.symbolHere?_moves hd).unread
      refine .operand hu (fun hx => ?_) (by rwa [hu] at hb)
      have hs := Symbol.ofChar?_of_mem hx
      rw [Symbol.ofChar?_char, Option.some.injEq, Option.some.injEq] at hs
      rcases hs with rfl | rfl
      · exact hopen d rfl
      · exact hsub d rfl
    · next hd =>
      cases h
      cases hu : m.cursor.skipSpaces.unread with
      | nil =>
        rw [Cursor.atEnd, hu]
        exact .ending hu
      | cons x rest =>
        rw [Cursor.atEnd, hu]
        refine .operand hu (fun hx => ?_) (by rwa [hu] at hb)
        have hs := Symbol.ofChar?_of_mem hx
        simp [symbolHere?_eq_none hu hd] at hs

theorem refused_of_step (h : step g m = .failed e) : Refused g m e := by
  unfold step at h
  split at h
  · next he =>
    split at h
    · next hc =>
      cases h
      exact .ending (by simp [Cursor.skipSpaces, Cursor.skipWhile, List.isEmpty_iff.1 hc])
    · exact refused_of_operand he h
  · next he =>
    split at h
    · next hc =>
      split at h
      · exact refused_of_leave h
      · next ho =>
        cases h
        exact .unclosed (by simpa [Cursor.atEnd] using hc) ho
    · next hc => exact refused_of_operator he (by simpa [Cursor.atEnd] using hc) h

end Machine

end Formula
