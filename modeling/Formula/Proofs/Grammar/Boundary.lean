import Formula.Grammar.Parse
import Formula.Proofs.Grammar.Reading
import Formula.Proofs.Grammar.Refusal
import Formula.Scalar.Double

/-!
Where the reading of a (sub)expression ends. Every step but the last reads on, the parens on a level's stack are as many
as its counter says, and a level that is left is left at the end of the text or on a `)` or `,` that stays unread. So the
parser never meets anything else behind a complete expression.
-/

namespace Formula

variable {α : Type}

namespace Cursor

variable {c d : Cursor}

theorem Advances.pos_lt (h : c.Advances d) : c.pos < d.pos := by
  obtain ⟨w, hw, hm⟩ := h
  have := List.length_pos_iff.2 hw
  have := hm.pos_eq
  omega

/-- Going back over what was just read. -/
theorem Moves.seek?_eq {w : List Char} (h : c.Moves w d) : d.seek? c.pos = some c := by
  have hp : c.pos ≤ d.size := by
    have := h.pos_eq
    have := d.pos_le_size
    omega
  have hr : c.text.take c.pos = c.read.reverse := List.take_left' List.length_reverse
  rw [seek?, if_pos hp, h.text_eq, hr, drop_pos, List.reverse_reverse]

/-- A symbol just read can be given back: its position is not the start of the text. -/
theorem unread_symbol {s : Symbol} (h : c.symbolHere? = some (s, d)) : 1 ≤ d.pos ∧ d.seek? (d.pos - 1) = some c := by
  have hm := symbolHere?_moves h
  have hp : d.pos = c.pos + 1 := hm.pos_eq
  refine ⟨by omega, ?_⟩
  rw [hp, Nat.add_sub_cancel]
  exact hm.seek?_eq

theorem skipSpaces_of_atEnd (h : c.atEnd) : c.skipSpaces = c := by
  obtain ⟨read, unread⟩ := c
  obtain rfl : unread = [] := by simpa [atEnd] using h
  rfl

/-- Where an expression may end. -/
def AtBoundary (c : Cursor) : Prop := c.peek? = none ∨ c.peek? = some ')' ∨ c.peek? = some ','

theorem atBoundary_of_closing (h : c.symbolHere? = some (.closing, d)) : c.AtBoundary :=
  .inr (.inl (by simp [peek?, (symbolHere?_moves h).unread, Symbol.char]))

theorem atBoundary_of_comma (h : c.symbolHere? = some (.comma, d)) : c.AtBoundary :=
  .inr (.inr (by simp [peek?, (symbolHere?_moves h).unread, Symbol.char]))

end Cursor

/-! ## The parens of a level -/

namespace Level

/-- The counter says how many parens are on the stack. -/
def Counted (l : Level α) : Prop := l.opened = l.pending.count .paren

theorem count_dropWhile {p : Pending → Bool} {ps : List Pending} (h : p .paren = false) :
    (ps.dropWhile p).count .paren = ps.count .paren := by
  have ht : (ps.takeWhile p).count .paren = 0 := by
    refine List.count_eq_zero.2 fun hm => ?_
    have hp : p .paren = true := List.all_eq_true.1 List.all_takeWhile _ hm
    cases h.symm.trans hp
  calc (ps.dropWhile p).count .paren
      = (ps.takeWhile p).count .paren + (ps.dropWhile p).count .paren := by rw [ht, Nat.zero_add]
    _ = ps.count .paren := by rw [← List.count_append, List.takeWhile_append_dropWhile]

theorem count_tail_dropWhile (ps : List Pending) :
    (ps.dropWhile (· != .paren)).tail.count .paren = ps.count .paren - 1 := by
  have hc : (ps.dropWhile (· != .paren)).count .paren = ps.count .paren := count_dropWhile (by simp)
  have hh := List.head?_dropWhile_not (fun x : Pending => x != .paren) ps
  cases hd : ps.dropWhile (· != .paren) with
  | nil => simp [← hc, hd]
  | cons x rest =>
    simp only [hd, List.head?_cons, bne_eq_false_iff_eq] at hh
    simp [← hc, hd, hh]

namespace Counted

variable {l : Level α}

theorem empty : Counted ({} : Level α) := rfl

theorem push (h : l.Counted) (t : Token α) : (l.push t).Counted := h

theorem operand (h : l.Counted) (t : Term α) : (l.feed [.operand t]).Counted := h

theorem minus (h : l.Counted) : l.minus.Counted := by simpa [Counted, Level.minus] using h

theorem openParen (h : l.Counted) : l.openParen.Counted := by simpa [Counted, Level.openParen] using h

theorem closeParen (h : l.Counted) : l.closeParen.Counted := by
  rw [Counted, Level.closeParen, count_tail_dropWhile, ← h]

theorem operator (h : l.Counted) (o : BinOp) : (l.operator o).Counted := by
  have hp : decide (o.precedence ≤ Pending.paren.precedence) = false := by cases o <;> rfl
  rw [Counted, Level.operator, List.count_cons_of_ne (by simp), count_dropWhile hp]
  exact h

end Counted

end Level

namespace Machine

variable {g : Grammar} {text : List Char}

/-- The counters of the current level and of those suspended around it agree with their stacks. Calls nest no deeper than
characters have been read, so their depth is bounded by the length of the text. -/
structure Kept (text : List Char) (m : Machine α) : Prop where
  text_eq : m.cursor.text = text
  counted : m.level.Counted
  suspended : ∀ p ∈ m.outer, p.level.Counted
  depth_le : m.outer.length ≤ m.cursor.pos

theorem kept_start (text : List Char) : Kept text (.start (.ofList text) : Machine α) where
  text_eq := rfl
  counted := .empty
  suspended := by simp [start]
  depth_le := Nat.le_refl _

/-- The level of `n` is read to its end, and what ends it stays unread. -/
structure Leaves [Scalar α] (g : Grammar) (n : Machine α) : Prop where
  boundary : n.cursor.skipSpaces.AtBoundary
  closed : n.level.opened = 0
  step_eq : step g n = leave g n.cursor.skipSpaces n.level.finish n.outer

/-- What a step does with the levels. A closing paren takes one off the counter, which was not zero. -/
inductive Turn [Scalar α] (g : Grammar) (m : Machine α) : Prop
  | reads {n : Machine α} : step g m = .next n → n.outer = m.outer → m.level.opened ≤ n.level.opened → Turn g m
  | closes {n : Machine α} : step g m = .next n → n.outer = m.outer → m.level.opened = n.level.opened + 1 → Turn g m
  | calls {n : Machine α} {call : Call α} : step g m = .next n → n.outer = ⟨m.level, call⟩ :: m.outer →
      n.level = {} → Turn g m
  | leaves : Leaves g m → Turn g m
  | fails {e : ParseError} : step g m = .failed e → Refused g m e → Turn g m

/-- The level of `m` is read to its end, unless the run fails before. -/
def Returns [Scalar α] (g : Grammar) (m : Machine α) : Prop :=
  (∃ n e, Steps g m n ∧ step g n = .failed e) ∨ ∃ n, Steps g m n ∧ n.outer = m.outer ∧ Leaves g n

theorem outer_of_resume {c : Cursor} {l : Level α} {call : Call α} {t : Token α} {outer : List (Suspended α)}
    {n : Machine α} (h : resume c l call t outer = .next n) : n.outer = outer := by
  unfold resume at h
  split at h
  · cases h
  · cases h
    rfl

theorem outer_of_enter {c : Cursor} {x : Char} {l : Level α} {call : Call α} {outer : List (Suspended α)} {n : Machine α}
    (h : enter g c x l call outer = .next n) : n.outer = ⟨l, call⟩ :: outer := by
  unfold enter at h
  split at h
  · cases h
  · split at h
    · cases h
    · cases h
      rfl

/-- Leaving a level goes back to the one around it, or on to the second argument of the same call. -/
theorem suffix_of_leave {c : Cursor} {s : Sequence α} {p : Suspended α} {outer : List (Suspended α)} {n : Machine α}
    (h : leave g c s (p :: outer) = .next n) : outer <:+ n.outer := by
  obtain ⟨l, f | _ | base⟩ := p
  · obtain rfl := outer_of_resume h
    exact List.suffix_refl _
  · rw [outer_of_enter h]
    exact List.suffix_cons _ _
  · obtain rfl := outer_of_resume h
    exact List.suffix_refl _

variable [Scalar α]

/-! ## One step -/

theorem Effect.counted {m n : Machine α} (he : Effect g m n) (hl : m.level.Counted)
    (ho : ∀ p ∈ m.outer, p.level.Counted) : n.level.Counted ∧ ∀ p ∈ n.outer, p.level.Counted := by
  cases he with
  | leaf => exact ⟨hl.operand _, ho⟩
  | word => exact ⟨.empty, List.forall_mem_cons.2 ⟨hl, ho⟩⟩
  | group => exact ⟨hl.openParen, ho⟩
  | minus => exact ⟨hl.minus, ho⟩
  | operator => exact ⟨hl.operator _, ho⟩
  | close => exact ⟨hl.closeParen, ho⟩
  | base => exact ⟨.empty, List.forall_mem_cons.2 (List.forall_mem_cons.1 ho)⟩
  | unary | argument =>
    obtain ⟨hl', ho⟩ := List.forall_mem_cons.1 ho
    exact ⟨hl'.push _, ho⟩

theorem Effect.length_outer_le {m n : Machine α} (he : Effect g m n) : n.outer.length ≤ m.outer.length + 1 := by
  cases he <;> simp only [List.length_cons] <;> omega

theorem kept_step {m n : Machine α} (hm : Kept text m) (h : step g m = .next n) : Kept text n where
  text_eq := (step_advances h).text_eq.trans hm.text_eq
  counted := ((effect_of_step h).counted hm.counted hm.suspended).1
  suspended := ((effect_of_step h).counted hm.counted hm.suspended).2
  depth_le := by
    have := hm.depth_le
    have := (effect_of_step h).length_outer_le
    have := (step_advances h).pos_lt
    omega

theorem turn_of_failed {m : Machine α} {e : ParseError} (h : step g m = .failed e) : Turn g m :=
  .fails h (refused_of_step h)

theorem turn_of_operand {m : Machine α} {sign : Bool} (he : m.expecting = .operand sign) : Turn g m := by
  cases hs : step g m with
  | next n =>
    cases effect_of_step hs with
    | leaf => exact .reads hs rfl (Nat.le_refl _)
    | word => exact .calls hs rfl rfl
    | group => exact .reads hs rfl (Nat.le_succ _)
    | minus => exact .reads hs rfl (Nat.le_refl _)
    | operator | close | unary | base | argument => cases he
  | done s rest =>
    obtain ⟨-, ho, -⟩ := done_of_step hs
    cases he.symm.trans ho
  | failed e => exact turn_of_failed hs

-- By what the step finds. The end of the text is a case of its own: only there is a level left with nothing behind it, and
-- spaces before it are refused.
theorem turn_of_operator {m : Machine α} (he : m.expecting = .operator) : Turn g m := by
  by_cases hc : m.cursor.atEnd
  · have hend := Cursor.skipSpaces_of_atEnd hc
    have hb : m.cursor.AtBoundary := .inl (by simpa [Cursor.peek?, Cursor.atEnd] using hc)
    by_cases ho : m.level.opened = 0
    · exact .leaves ⟨hend.symm ▸ hb, ho, by simp [step, he, hc, ho, hend]⟩
    · exact turn_of_failed (e := .missingClosing) (by simp [step, he, hc, ho])
  · have hstep : step g m = stepOperator g m := by simp [step, he, hc]
    cases hs : m.cursor.skipSpaces.symbolHere? with
    | none =>
      exact turn_of_failed (e := .expectedOperator m.cursor.skipSpaces.pos) (hstep.trans (by simp [stepOperator, hs]))
    | some p =>
      obtain ⟨_ | _ | _ | o, d⟩ := p
      · by_cases ho : m.level.opened = 0
        · exact .leaves ⟨Cursor.atBoundary_of_comma hs, ho, hstep.trans (by simp [stepOperator, hs, ho])⟩
        · exact turn_of_failed (e := .strayComma m.cursor.skipSpaces.pos) (hstep.trans (by simp [stepOperator, hs, ho]))
      · exact turn_of_failed (e := .expectedOperator d.pos) (hstep.trans (by simp [stepOperator, hs]))
      · by_cases ho : m.level.opened = 0
        · exact .leaves ⟨Cursor.atBoundary_of_closing hs, ho, hstep.trans (by simp [stepOperator, hs, ho])⟩
        · exact .closes (n := { m with cursor := d, level := m.level.closeParen })
            (hstep.trans (by simp [stepOperator, hs, ho])) rfl (Nat.succ_pred_eq_of_ne_zero ho).symm
      · exact .reads (n := { m with cursor := d, level := m.level.operator o, expecting := .operand false })
          (hstep.trans (by simp [stepOperator, hs])) rfl (Nat.le_refl _)

theorem turn_of_step (g : Grammar) (m : Machine α) : Turn g m := by
  cases he : m.expecting with
  | operand sign => exact turn_of_operand he
  | operator => exact turn_of_operator he

theorem leaves_of_done {m : Machine α} {s : Sequence α} {rest : Cursor} (h : step g m = .done s rest) :
    Leaves g m ∧ rest = m.cursor.skipSpaces := by
  cases turn_of_step g m with
  | reads hn | closes hn | calls hn | fails hn _ => cases h.symm.trans hn
  | leaves hc => exact ⟨hc, (done_of_leave (hc.step_eq.symm.trans h)).2.2⟩

/-- A step keeps the levels around `outer` suspended until the level on top of them is left. -/
theorem suffix_of_step {m n : Machine α} {outer : List (Suspended α)} (ho : outer <:+ m.outer)
    (h : step g m = .next n) : outer <:+ n.outer ∨ m.outer = outer ∧ Leaves g m := by
  cases turn_of_step g m with
  | reads hn hl _ | closes hn hl _ =>
    cases h.symm.trans hn
    exact .inl (hl ▸ ho)
  | calls hn hl _ =>
    cases h.symm.trans hn
    exact .inl (hl ▸ ho.trans (List.suffix_cons _ _))
  | fails he _ => cases h.symm.trans he
  | leaves hc =>
    have hs := hc.step_eq.symm.trans h
    cases hm : m.outer with
    | nil => simp [hm, leave] at hs
    | cons p rest =>
      rw [hm] at hs ho
      rcases List.suffix_cons_iff.1 ho with rfl | hr
      · exact .inr ⟨rfl, hc⟩
      · exact .inl (hr.trans (suffix_of_leave hs))

/-! ## A whole run -/

theorem kept_steps {m n : Machine α} (hm : Kept text m) (h : Steps g m n) : Kept text n := by
  induction h with
  | refl => exact hm
  | tail _ hs ih => exact kept_step ih hs

-- On the run. The levels that it opens on the way stand on top of `outer`, so it comes back to `outer` after leaving them.
theorem ends_of_suffix (m : Machine α) {outer : List (Suspended α)} (ho : outer <:+ m.outer) :
    (∃ n e, Steps g m n ∧ step g n = .failed e) ∨ ∃ n, Steps g m n ∧ n.outer = outer ∧ Leaves g n := by
  fun_induction run g m with
  | case1 m n hn ih =>
    rcases suffix_of_step ho hn with ho | ⟨heq, hl⟩
    · obtain ⟨k, e, hs, he⟩ | ⟨k, hs, hk⟩ := ih ho
      · exact .inl ⟨k, e, (Steps.of_step hn).trans hs, he⟩
      · exact .inr ⟨k, (Steps.of_step hn).trans hs, hk⟩
    · exact .inr ⟨m, .refl, heq, hl⟩
  | case2 m s rest hd =>
    obtain ⟨⟨hm, -⟩, -⟩ := done_of_step hd
    obtain rfl := List.suffix_nil.1 (hm ▸ ho)
    exact .inr ⟨m, .refl, hm, (leaves_of_done hd).1⟩
  | case3 m e he => exact .inl ⟨m, e, .refl, he⟩

theorem returns (g : Grammar) (m : Machine α) : Returns g m := ends_of_suffix m (List.suffix_refl _)

theorem boundary_of_run {s : Sequence α} {rest : Cursor} (h : run g (.start (.ofList text)) = .ok (s, rest)) :
    rest.text = text ∧ rest.AtBoundary := by
  obtain ⟨m, hm, hd⟩ := run_induct (fun _ _ => kept_step) (kept_start (α := α) text) h
  obtain ⟨hl, rfl⟩ := leaves_of_done hd
  obtain ⟨w, hw⟩ := skipSpaces_moves m.cursor
  exact ⟨hw.text_eq.trans hm.text_eq, hl.boundary⟩

theorem run_ne_trailingInput (m : Machine α) (pos : Nat) : run g m ≠ .error (.trailingInput pos) := by
  intro h
  obtain ⟨n, -, ⟨s, rest, -, hr⟩ | ⟨e, he, hr⟩⟩ := exists_last (P := fun _ => True) (g := g) (fun _ _ _ _ => trivial)
    (m := m) trivial
  · cases h.symm.trans hr
  · cases h.symm.trans hr
    cases refused_of_step he

end Machine

namespace Grammar

theorem complete_ne_trailingInput {s : Sequence α} {c : Cursor} (h : c.AtBoundary) (pos : Nat) :
    complete s c ≠ .error (.trailingInput pos) := by
  rcases h with h | h | h <;> simp [complete, h]

variable [Scalar α]

theorem parse_ne_trailingInput (g : Grammar) (text : String) (pos : Nat) :
    g.parse (α := α) text ≠ .error (.trailingInput pos) := by
  simp only [parse, parseChars]
  split
  · simp
  · cases hr : Machine.run (α := α) g (.start (.ofList (Text.trim text.toList))) with
    | error e =>
      intro h
      cases h
      exact Machine.run_ne_trailingInput _ pos hr
    | ok p => exact complete_ne_trailingInput (Machine.boundary_of_run hr).2 pos

/-- At every step of a run the stack and its counter agree, whatever symbol stands next can be given back once it is read,
and what the step goes on with is shorter; every level returns, and none but at a boundary. So a whole run ends there
too, and what the parser meets behind it is never a trailing character. -/
theorem run_stops_at_boundary (g : Grammar) :
    (∀ (text : List Char) (m : Machine α), Machine.Steps g (.start (.ofList text)) m →
      m.Kept text ∧ m.Turn g ∧ m.Returns g ∧ (∀ n, m.step g = .next n → m.cursor.Advances n.cursor) ∧
        ∀ s d, m.cursor.skipSpaces.symbolHere? = some (s, d) →
          1 ≤ d.pos ∧ d.seek? (d.pos - 1) = some m.cursor.skipSpaces) ∧
      (∀ (text : List Char) (s : Sequence α) (rest : Cursor), Machine.run g (.start (.ofList text)) = .ok (s, rest) →
        rest.text = text ∧ rest.AtBoundary) ∧
      ∀ (text : String) (pos : Nat), g.parse (α := α) text ≠ .error (.trailingInput pos) := by
  refine ⟨fun text m h => ?_, fun text s rest h => Machine.boundary_of_run h, parse_ne_trailingInput g⟩
  exact ⟨Machine.kept_steps (Machine.kept_start text) h, Machine.turn_of_step g m, Machine.returns g m,
    fun n hn => Machine.step_advances hn, fun s d hd => Cursor.unread_symbol hd⟩

/-- In a paren in a call, with a comma behind the call: the paren is closed, and the run stops before the comma. -/
theorem run_stops_at_comma :
    let g := oneVariable "x"
    let m : Machine Float := ⟨⟨['x', '(', '(', 'n', 'l'], [')', ')', ',']⟩,
      { output := [.var .independent], pending := [.paren], opened := 1 }, [⟨{}, .unary .ln⟩], .operator⟩
    let n : Machine Float := ⟨⟨[')', 'x', '(', '(', 'n', 'l'], [')', ',']⟩,
      { output := [.var .independent] }, [⟨{}, .unary .ln⟩], .operator⟩
    let rest : Cursor := ⟨[')', ')', 'x', '(', '(', 'n', 'l'], [',']⟩
    (m.Kept "ln((x)),".toList ∧ m.cursor.Advances n.cursor ∧ n.cursor.seek? 5 = some m.cursor) ∧
      Machine.run g (.start (.ofList "ln((x)),".toList)) = .ok ([Token.call (α := Float) .ln [.var .independent]], rest) ∧
      rest.AtBoundary := by
  intro g m n rest
  obtain ⟨hsteps, hrun, -⟩ := run_stops_at_boundary (α := Float) g
  let s₁ : Machine Float := ⟨⟨['(', 'n', 'l'], ['(', 'x', ')', ')', ',']⟩, {}, [⟨{}, .unary .ln⟩], .operand false⟩
  let s₂ : Machine Float := ⟨⟨['(', '(', 'n', 'l'], ['x', ')', ')', ',']⟩, { pending := [.paren], opened := 1 },
    [⟨{}, .unary .ln⟩], .operand false⟩
  have hm : Machine.Steps g (.start (.ofList "ln((x)),".toList)) m :=
    (Machine.Steps.of_step (n := s₁) rfl).trans ((Machine.Steps.of_step (n := s₂) rfl).trans (.of_step rfl))
  have hn : m.step g = .next n := rfl
  have hr : Machine.run g (.start (.ofList "ln((x)),".toList)) =
      .ok ([Token.call (α := Float) .ln [.var .independent]], rest) := by
    let k : Machine Float := ⟨rest, { output := [.call .ln [.var .independent]] }, [], .operator⟩
    have hk : Machine.Steps g (.start (.ofList "ln((x)),".toList)) k :=
      hm.trans ((Machine.Steps.of_step hn).trans (.of_step rfl))
    rw [Machine.run_of_steps hk]
    exact Machine.run_of_done rfl
  obtain ⟨hkept, -, -, hadv, hsym⟩ := hsteps _ m hm
  exact ⟨⟨hkept, hadv n hn, (hsym .closing n.cursor rfl).2⟩, hr, (hrun _ _ _ hr).2⟩

end Grammar

end Formula
