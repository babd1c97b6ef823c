import Formula.Grammar.Parse
import Formula.Proofs.Grammar.Reading
import Formula.Proofs.Grammar.Refusal
import Formula.Proofs.Grammar.Standing
import Formula.Proofs.Text
import Formula.Scalar.Double

/-!
Where the errors of the parser point: at the character that is out of place. One error does not, a paren where an operator
is due, and names the position behind it.
-/

namespace Formula

variable {α : Type}

/-! ## What is left to read -/

theorem Spaced.suffix {a b : List Char} (h : Spaced a b) : b <:+ a := by
  obtain ⟨n, rfl⟩ := h
  exact List.suffix_append _ _

theorem Spaced.suffix_tail {a b : List Char} {x : Char} (h : Spaced a (x :: b)) : b <:+ a :=
  (List.suffix_cons x b).trans h.suffix

/-- What stands behind the paren of a call. -/
theorem Spaced.suffix_call {a b w : List Char} (h : Spaced a (w ++ '(' :: b)) : b <:+ a :=
  (List.suffix_cons '(' b).trans ((List.suffix_append w _).trans h.suffix)

variable [Scalar α] {g : Grammar}

theorem Leaf.suffix {here rest : List Char} {t : Term α} (h : Leaf g here t rest) : rest <:+ here := by
  cases h with
  | name => exact List.suffix_append _ _
  | euler => exact List.suffix_cons _ _
  | pi => exact List.suffix_append ['p', 'i'] _
  | numeral _ hl => exact ⟨_, hl.text.symm⟩

namespace Derives

variable {ordered : Bool} {a b : List Char} {v : List (Item α)}

theorem suffix {p : Phrase α} (h : Derives g ordered p a b) : b <:+ a := by
  induction h with
  | leaf hs _ hl => exact hl.suffix.trans hs.suffix
  | call hs _ _ _ hc ih => exact hc.suffix_tail.trans (ih.trans hs.suffix_call)
  | log hs _ _ _ hm _ _ hc ihb iha =>
    exact hc.suffix_tail.trans (iha.trans (hm.suffix_tail.trans (ihb.trans hs.suffix_call)))
  | group hs _ _ _ hc ih => exact hc.suffix_tail.trans (ih.trans hs.suffix_tail)
  | plain _ ih | single _ ih => exact ih
  | minus hs _ _ _ ih => exact ih.trans hs.suffix_tail
  | more _ hs _ ihl ihr => exact ihr.trans (hs.suffix_tail.trans ihl)

/-- An expression ends with an operand. -/
theorem last {p : Phrase α} (h : Derives g ordered p a b) :
    ∃ (here : List Char) (t : Term α), here <:+ a ∧ Derives g ordered (.primary t) here b := by
  induction h with
  | leaf hs hh hl => exact ⟨_, _, List.suffix_refl _, .leaf hs hh hl⟩
  | call hs hn hv ht hc => exact ⟨_, _, List.suffix_refl _, .call hs hn hv ht hc⟩
  | log hs hn hv ht hm hw hu hc => exact ⟨_, _, List.suffix_refl _, .log hs hn hv ht hm hw hu hc⟩
  | group hs hn hv ht hc => exact ⟨_, _, List.suffix_refl _, .group hs hn hv ht hc⟩
  | plain _ ih | single _ ih => exact ih
  | minus hs _ _ _ ih =>
    obtain ⟨here, t, hh, ht⟩ := ih
    exact ⟨here, t, hh.trans hs.suffix_tail, ht⟩
  | more hl hs _ _ ih =>
    obtain ⟨here, t, hh, ht⟩ := ih
    exact ⟨here, t, hh.trans (hs.suffix_tail.trans hl.suffix), ht⟩

end Derives

theorem Partial.suffix {a b : List Char} {v : List (Item α)} {e : Expecting} (h : Partial g a v e b) : b <:+ a := by
  induction h with
  | start => exact List.suffix_refl _
  | complete hv => exact hv.suffix
  | operator hv hs => exact hs.suffix_tail.trans hv.suffix
  | sign _ hs _ _ ih => exact hs.suffix_tail.trans ih

namespace Stands

variable {a b : List Char} {l : Level α}

theorem suffix {e : Expecting} (h : Stands g a l e b) : b <:+ a := by
  induction h with
  | flat hv => exact hv.suffix
  | opened _ hs _ hv ih => exact hv.suffix.trans (hs.suffix_tail.trans ih)

/-- Where an operator is due, an operand has just been read. -/
theorem last (h : Stands g a l .operator b) :
    ∃ (here : List Char) (t : Term α), here <:+ a ∧ Derives g true (.primary t) here b := by
  cases h with
  | flat hv => exact hv.derives.last
  | opened hl hs _ hv =>
    obtain ⟨here, t, hh, ht⟩ := hv.derives.last
    exact ⟨here, t, hh.trans (hs.suffix_tail.trans hl.suffix), ht⟩

end Stands

theorem Waits.suffix {text a : List Char} {outer : List (Suspended α)} (h : Waits g text outer a) : a <:+ text := by
  induction h with
  | nil => exact List.suffix_refl _
  | word _ hl _ hs _ ih => exact hs.suffix_call.trans (hl.suffix.trans ih)
  | base _ hl hs _ hv _ hm ih =>
    exact hm.suffix_tail.trans (hv.suffix.trans (hs.suffix_call.trans (hl.suffix.trans ih)))

/-! ## Positions -/

/-- Before the position stands an operand, a call or a group, with at most spaces between. -/
def Follows (α : Type) [Scalar α] (g : Grammar) (text : List Char) (pos : Nat) : Prop :=
  ∃ (here rest : List Char) (t : Term α), here <:+ text ∧ Derives g true (.primary t) here rest ∧
    Spaced rest (text.drop pos)

/-- What stands where the error points. -/
def ParseError.Points (α : Type) [Scalar α] (g : Grammar) (text : List Char) : ParseError → Prop
  | badMinus pos => text[pos]? = some '-'
  | missingOpening pos => text[pos]? = some ')'
  | strayComma pos => text[pos]? = some ','
  | expectedOperand pos => ∃ x, text[pos]? = some x ∧ x ∉ [' ', '(', '-'] ∧ ¬ g.Begins (text.drop pos)
  | malformedNumber n => (text.drop n.pos).take n.lexeme.length = n.lexeme.toList
  | expectedOperator pos => ∃ here x, Follows α g text here ∧ text[here]? = some x ∧ x ≠ ' ' ∧
      (Symbol.ofChar? x = none ∧ pos = here ∨ x = '(' ∧ pos = here + 1)
  | unexpectedEnd | badCall _ _ | missingClosing | trailingInput _ | tooDeep _ => True

namespace Machine

variable {m : Machine α} {text : List Char}

theorem Sound.follows (h : Sound g text m) (ht : m.cursor.text = text) (he : m.expecting = .operator) :
    Follows α g text m.cursor.skipSpaces.pos := by
  obtain ⟨a, hw, hs⟩ := h
  rw [he] at hs
  obtain ⟨here, t, hh, hd⟩ := hs.last
  obtain ⟨w, hm⟩ := skipSpaces_moves m.cursor
  refine ⟨here, _, t, hh.trans hw.suffix, hd, ?_⟩
  rw [← ht, ← hm.text_eq, Cursor.drop_pos]
  exact spaced_skipSpaces m.cursor

/-- A text that does not end in a space has more than spaces left, if anything. -/
theorem skipSpaces_ne_nil {c : Cursor} (hl : c.text.getLast? ≠ some ' ') (hc : c.unread ≠ []) :
    c.skipSpaces.unread ≠ [] := by
  intro hn
  obtain ⟨k, hk⟩ := spaced_skipSpaces c
  rw [hn, List.append_nil] at hk
  have hlast : c.text.getLast? = c.unread.getLast? := by
    rw [Cursor.text, List.getLast?_append_of_ne_nil _ hc]
  rw [hlast, hk, List.getLast?_replicate] at hl
  split at hl
  · next h0 => simp [hk, h0] at hc
  · exact hl rfl

-- By what the step finds. Every position is the cursor's behind spaces, so the text goes on there with what is unread; that
-- only spaces are left cannot happen, since the text is trimmed.
theorem points_of_refused {e : ParseError} (hs : Sound g text m) (ht : m.cursor.text = text)
    (hl : text.getLast? ≠ some ' ') (h : Refused g m e) : e.Points α g text := by
  obtain ⟨w, hm⟩ := skipSpaces_moves m.cursor
  have hd : m.cursor.skipSpaces.text = text := hm.text_eq.trans ht
  have hdrop : text.drop m.cursor.skipSpaces.pos = m.cursor.skipSpaces.unread := by rw [← hd, Cursor.drop_pos]
  have hat : text[m.cursor.skipSpaces.pos]? = m.cursor.skipSpaces.unread.head? := by rw [← hd, Cursor.getElem?_pos]
  have hhead := head_skipSpaces m.cursor
  cases h with
  | ending | call | deep | unclosed => trivial
  | point hp hn =>
    rw [ParseError.Points, hp, hdrop]
    exact (List.prefix_iff_eq_take.1 hn).symm
  | minus _ hu => rw [ParseError.Points, hat, hu, List.head?_cons]
  | comma hu => rw [ParseError.Points, hat, hu, List.head?_cons]
  | @operand x rest hu hx hb =>
    rw [hu] at hat hdrop hhead
    refine ⟨x, hat, ?_, by rwa [hdrop]⟩
    simpa [not_or] using ⟨by simpa using hhead, by simpa [not_or] using hx⟩
  | @operator x rest he hu ho =>
    rw [hu] at hat hhead
    exact ⟨_, x, hs.follows ht he, hat, by simpa using hhead, .inl ⟨ho, rfl⟩⟩
  | @paren rest he hu =>
    rw [hu] at hat
    exact ⟨_, '(', hs.follows ht he, hat, by decide, .inr ⟨rfl, rfl⟩⟩
  | blank hc hn => exact absurd hn (skipSpaces_ne_nil (by rwa [ht]) hc)

end Machine

namespace Grammar

theorem points_of_complete {s : Sequence α} {rest : Cursor} {e : ParseError} (h : complete s rest = .error e) :
    e.Points α g rest.text := by
  have hat := rest.getElem?_pos
  unfold complete at h
  split at h
  · cases h
  · next hp =>
    cases h
    exact hat.trans hp
  · next hp =>
    cases h
    exact hat.trans hp
  · cases h
    trivial

/-- An error of the parser names the character that is out of place, or, for a paren behind an operand, the position
behind the paren. -/
theorem parse_error_points {text : String} {e : ParseError} (h : g.parse (α := α) text = .error e) :
    e.Points α g (Text.trim text.toList) := by
  have hl : (Text.trim text.toList).getLast? ≠ some ' ' := by
    intro hl
    have := Text.getLast?_trim hl
    simp [Text.isBlank] at this
  simp only [parse, parseChars] at h
  generalize Text.trim text.toList = body at h hl
  split at h
  · cases h
  · obtain ⟨n, ⟨hs, ht⟩, ⟨s, rest, hd, hr⟩ | ⟨e', hf, hr⟩⟩ := Machine.exists_last
      (P := fun m => Machine.Sound g body m ∧ m.cursor.text = body)
      (fun m n hm hn => ⟨Machine.sound_step hm.1 (Machine.effect_of_step hn),
        (Machine.step_advances hn).text_eq.trans hm.2⟩)
      ⟨Machine.sound_start (α := α) g body, rfl⟩
    · obtain ⟨-, -, -, w, hm⟩ := Machine.done_of_step hd
      simp only [hr, bind, Except.bind] at h
      rw [← ht, ← hm.text_eq]
      exact points_of_complete h
    · simp only [hr, bind, Except.bind, Except.error.injEq] at h
      subst h
      exact Machine.points_of_refused hs ht hl (Machine.refused_of_step hf)

theorem parse_of_failed {text : String} {e : ParseError} {m : Machine α} (hne : Text.trim text.toList ≠ [])
    (hs : Machine.Steps g (.start (.ofList (Text.trim text.toList))) m) (h : Machine.step g m = .failed e) :
    g.parse (α := α) text = .error e := by
  have hr := (Machine.run_of_steps hs).trans (Machine.run_of_failed h)
  simp [parse, parseChars, hne, hr, bind, Except.bind]

/-- Two operands in an argument: the error names the second one, behind the space. -/
theorem parse_ln_two : (oneVariable "x").parse (α := Float) "ln(2 3)" = .error (.expectedOperator 5) ∧
    (ParseError.expectedOperator 5).Points Float (oneVariable "x") "ln(2 3)".toList := by
  have hp : (oneVariable "x").parse (α := Float) "ln(2 3)" = .error (.expectedOperator 5) :=
    parse_of_failed (m := ⟨⟨['2', '(', 'n', 'l'], [' ', '3', ')']⟩,
        { output := [.number (Numeral.value ⟨['2'], []⟩)] }, [⟨{}, .unary .ln⟩], .operator⟩) (by decide)
      (.trans (.of_step (n := ⟨⟨['(', 'n', 'l'], ['2', ' ', '3', ')']⟩, {}, [⟨{}, .unary .ln⟩], .operand false⟩) rfl)
        (.of_step rfl)) rfl
  have ht : Text.trim "ln(2 3)".toList = "ln(2 3)".toList := by decide
  exact ⟨hp, ht ▸ parse_error_points hp⟩

/-- The paren stands where an operator is due, and the error names a position that is not in the text. -/
theorem parse_paren_behind : (oneVariable "x").parse (α := Float) "x(" = .error (.expectedOperator 2) ∧
    (Text.trim "x(".toList)[1]? = some '(' ∧ (Text.trim "x(".toList)[2]? = none :=
  ⟨parse_of_failed (m := ⟨⟨['x'], ['(']⟩, { output := [.var .independent] }, [], .operator⟩) (by decide)
    (.of_step rfl) rfl, by decide, by decide⟩

end Grammar

end Formula
