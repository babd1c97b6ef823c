import Formula.Grammar.Parse
import Formula.Proofs.Grammar.Effect
import Formula.Proofs.Grammar.Leaf
import Formula.Rendering
import Formula.Scalar.Double

/-!
Texts without line feeds, so that what is printed as a line is one. Numbers, sequences and the messages of the parser are,
whatever was read: what a message quotes are digits or the word of a call.
-/

namespace Formula

/-! ## Texts -/

def Text.OneLine (s : String) : Prop := '\n' ∉ s.toList

namespace Text

theorem oneLine_append {s t : String} : OneLine (s ++ t) ↔ OneLine s ∧ OneLine t := by
  simp [OneLine, not_or]

theorem oneLine_ofList {cs : List Char} : OneLine (String.ofList cs) ↔ '\n' ∉ cs := by
  simp [OneLine]

theorem oneLine_empty : OneLine "" := oneLine_ofList.2 (by decide)

theorem isDigit_of_mem_toDigits {n : Nat} {x : Char} (h : x ∈ Nat.toDigits 10 n) : x.isDigit :=
  Nat.isDigit_of_mem_toDigits (by decide) (by decide) h

theorem oneLine_toString (n : Nat) : OneLine (toString n) := by
  rw [Nat.toString_eq_ofList_toDigits, oneLine_ofList]
  exact fun h => absurd (isDigit_of_mem_toDigits h) (by decide)

/-- A message that ends with a position. -/
theorem oneLine_position {cs : List Char} (h : '\n' ∉ cs) (pos : Nat) : OneLine (String.ofList cs ++ toString pos) :=
  oneLine_append.2 ⟨oneLine_ofList.2 h, oneLine_toString pos⟩

end Text

open Text

/-! ## Numbers -/

namespace Decimal

theorem digit_or_point_of_pointed {n places : Nat} {x : Char} (h : x ∈ pointed n places) : x.isDigit ∨ x = '.' := by
  have hpad : ∀ y ∈ List.replicate (places + 1 - (Nat.toDigits 10 n).length) '0' ++ Nat.toDigits 10 n, y.isDigit := by
    intro y hy
    rcases List.mem_append.1 hy with hy | hy
    · rw [List.eq_of_mem_replicate hy]
      decide
    · exact isDigit_of_mem_toDigits hy
  unfold pointed at h
  simp only at h
  split at h
  · exact .inl (hpad x (List.mem_of_mem_take h))
  · rcases List.mem_append.1 h with h | h
    · exact .inl (hpad x (List.mem_of_mem_take h))
    · rcases List.mem_cons.1 h with h | h
      · exact .inr h
      · exact .inl (hpad x (List.mem_of_mem_drop h))

theorem dropTrailingZeros_subset (cs : List Char) : dropTrailingZeros cs ⊆ cs := by
  intro x hx
  rw [dropTrailingZeros, List.mem_reverse] at hx
  exact List.mem_reverse.1 ((List.dropWhile_sublist _).subset hx)

theorem digit_or_point_of_positional {s : Scientific} {x : Char} (h : x ∈ s.positional) : x.isDigit ∨ x = '.' := by
  unfold Scientific.positional at h
  split at h
  · rcases List.mem_append.1 h with h | h
    · exact .inl (isDigit_of_mem_toDigits h)
    · rw [List.eq_of_mem_replicate h]
      exact .inl (by decide)
  · have hwhole : ∀ y ∈ (pointed s.digits (-s.exponent).toNat).takeWhile (· != '.'), y.isDigit ∨ y = '.' := fun y hy =>
      digit_or_point_of_pointed ((List.takeWhile_sublist _).subset hy)
    simp only at h
    split at h
    · exact hwhole x h
    · rcases List.mem_append.1 h with h | h
      · exact hwhole x h
      · rcases List.mem_cons.1 h with h | h
        · exact .inr h
        · exact digit_or_point_of_pointed (List.mem_of_mem_drop (dropTrailingZeros_subset _ h))

theorem newline_not_mem_signed {negative : Bool} {text : List Char} (h : '\n' ∉ text) : '\n' ∉ signed negative text := by
  unfold signed
  split <;> simp [h]

theorem oneLine_shortestText (x : Float) : OneLine (shortestText x) := by
  have hfinite : ∀ m q, '\n' ∉ if m = 0 then ['0'] else (shortest m q).positional := by
    intro m q h
    split at h
    · simp at h
    · exact absurd (digit_or_point_of_positional h) (by decide)
  rw [shortestText, Binary.text, oneLine_ofList]
  split
  · decide
  · exact newline_not_mem_signed (by decide)
  · exact newline_not_mem_signed (hfinite _ _)

end Decimal

/-! ## Sequences -/

theorem oneLine_name (f : Func) : OneLine f.name := by
  cases f <;> exact oneLine_ofList.2 (by decide)

theorem oneLine_symbol (o : BinOp) : OneLine (String.singleton o.symbol) := by
  cases o <;> exact oneLine_ofList.2 (by decide)

namespace Piece

variable {p l r : Piece}

theorem oneLine_enclosed (h : OneLine p.text) (parens : Bool) : OneLine (p.enclosed parens) := by
  cases parens with
  | false => exact h
  | true =>
    have hopen : OneLine ("(" ++ p.text) := oneLine_append.2 ⟨oneLine_ofList.2 (by decide), h⟩
    exact oneLine_append.2 ⟨hopen, oneLine_ofList.2 (by decide)⟩

theorem oneLine_neg (h : OneLine p.text) : OneLine p.neg.text :=
  oneLine_append.2 ⟨oneLine_ofList.2 (by decide), oneLine_enclosed h _⟩

theorem oneLine_op (o : BinOp) (hl : OneLine l.text) (hr : OneLine r.text) : OneLine (op o l r).text := by
  have hspace : OneLine " " := oneLine_ofList.2 (by decide)
  simp only [op, oneLine_append]
  exact ⟨⟨⟨⟨oneLine_enclosed hl _, hspace⟩, oneLine_symbol o⟩, hspace⟩, oneLine_enclosed hr _⟩

end Piece

variable {α : Type} [Scalar α]

section Rendering

variable {names : Names}

/-- The pieces left of a sequence, if any are, have texts without line feeds. -/
def OneLines (ps : Option (List Piece)) : Prop := ∀ stack, ps = some stack → ∀ p ∈ stack, OneLine p.text

omit [Scalar α] in
theorem oneLine_joined (s : Sequence α) {ps : Option (List Piece)} (h : OneLines ps) : OneLine (joined s ps) := by
  unfold joined
  split
  · exact h _ rfl _ List.mem_cons_self
  · split <;> exact oneLine_ofList.2 (by decide)

-- On tokens and sequences together: a token makes one piece of those it takes.
theorem oneLines_render (hnames : ∀ slot, OneLine (names.of slot)) (htext : ∀ v : α, OneLine (Scalar.text v)) :
    (∀ (t : Token α) (stack : List Piece), (∀ p ∈ stack, OneLine p.text) → OneLines (t.render names stack)) ∧
    ∀ (s : Sequence α) (stack : List Piece), (∀ p ∈ stack, OneLine p.text) → OneLines (s.pieces names stack) := by
  have push : ∀ (p : Piece) (stack : List Piece), OneLine p.text → (∀ p ∈ stack, OneLine p.text) →
      OneLines (some (p :: stack)) := by
    rintro p stack hp hs _ ⟨⟩ q hq
    rcases List.mem_cons.1 hq with rfl | hq
    · exact hp
    · exact hs q hq
  have argument : ∀ a : Sequence α, (∀ stack, (∀ p ∈ stack, OneLine p.text) → OneLines (a.pieces names stack)) →
      OneLine (joined a (a.pieces names [])) := fun a ih => oneLine_joined a (ih [] (by simp))
  refine Token.induct ?number ?var ?call ?log ?neg ?op ?nil ?cons
  case number => exact fun v stack hs => push _ _ (htext v) hs
  case var => exact fun slot stack hs => push _ _ (hnames slot) hs
  case call =>
    intro f arg ih stack hs
    refine push _ _ ?_ hs
    simp only [Piece.atom, oneLine_append]
    exact ⟨⟨⟨oneLine_name f, oneLine_ofList.2 (by decide)⟩, argument arg ih⟩, oneLine_ofList.2 (by decide)⟩
  case log =>
    intro base arg ihb iha stack hs
    refine push _ _ ?_ hs
    simp only [Piece.atom, oneLine_append]
    exact ⟨⟨⟨⟨oneLine_ofList.2 (by decide), argument base ihb⟩, oneLine_ofList.2 (by decide)⟩, argument arg iha⟩,
      oneLine_ofList.2 (by decide)⟩
  case neg =>
    intro stack hs
    rcases stack with _ | ⟨p, below⟩
    · rintro _ ⟨⟩
    · exact push _ _ (Piece.oneLine_neg (hs p List.mem_cons_self)) fun q hq => hs q (List.mem_cons_of_mem _ hq)
  case op =>
    intro o stack hs
    rcases stack with _ | ⟨r, _ | ⟨l, below⟩⟩
    · rintro _ ⟨⟩
    · rintro _ ⟨⟩
    · exact push _ _ (Piece.oneLine_op o (hs l (by simp)) (hs r (by simp))) fun q hq => hs q (by simp [hq])
  case nil =>
    rintro stack hs _ ⟨⟩
    exact hs
  case cons =>
    intro t ts iht ihts stack hs final hf
    obtain ⟨stack', ht, hts⟩ := Option.bind_eq_some_iff.1 hf
    exact ihts stack' (iht stack hs stack' ht) final hts

theorem Sequence.oneLine_render (hnames : ∀ slot, OneLine (names.of slot)) (htext : ∀ v : α, OneLine (Scalar.text v))
    (s : Sequence α) : OneLine (s.render names) :=
  oneLine_joined s ((oneLines_render hnames htext).2 s [] (by simp))

end Rendering

/-! ## Messages -/

/-- What a message takes from the text. -/
def ParseError.quoted : ParseError → String
  | badCall name _ => name
  | malformedNumber n => n.lexeme
  | unexpectedEnd | expectedOperand _ | expectedOperator _ | badMinus _ | missingClosing | missingOpening _ | strayComma _
  | trailingInput _ | tooDeep _ => ""

theorem ParseError.oneLine_message {e : ParseError} (h : OneLine e.quoted) : OneLine e.message := by
  have hat : OneLine "' at position " := oneLine_ofList.2 (by decide)
  cases e with
  | unexpectedEnd | missingClosing => exact oneLine_ofList.2 (by decide)
  | expectedOperand pos | expectedOperator pos | missingOpening pos | strayComma pos | trailingInput pos =>
    exact oneLine_position (by decide) pos
  | badMinus pos =>
    dsimp only [message]
    exact oneLine_append.2 ⟨oneLine_position (by decide) pos, oneLine_ofList.2 (by decide)⟩
  | tooDeep limit =>
    dsimp only [message]
    exact oneLine_append.2 ⟨oneLine_position (by decide) limit, oneLine_ofList.2 (by decide)⟩
  | badCall name pos =>
    dsimp only [message]
    simp only [oneLine_append]
    exact ⟨⟨⟨oneLine_ofList.2 (by decide), h⟩, hat⟩, oneLine_toString pos⟩
  | malformedNumber n =>
    dsimp only [message, DanglingPoint.message]
    simp only [oneLine_append]
    exact ⟨⟨⟨oneLine_ofList.2 (by decide), h⟩, hat⟩, oneLine_toString n.pos⟩

namespace Machine

variable {g : Grammar} {c : Cursor} {l : Level α} {outer : List (Suspended α)} {e : ParseError}

omit [Scalar α] in
theorem oneLine_callName (call : Call α) : OneLine call.name := by
  rcases call with f | _ | _
  · exact oneLine_name f
  · exact oneLine_ofList.2 (by decide)
  · exact oneLine_ofList.2 (by decide)

omit [Scalar α] in
theorem quoted_of_enter {x : Char} {call : Call α} (h : enter g c x l call outer = .failed e) : OneLine e.quoted := by
  unfold enter at h
  split at h
  · cases h
    exact oneLine_callName call
  · split at h
    · cases h
      exact oneLine_empty
    · cases h

omit [Scalar α] in
theorem quoted_of_resume {call : Call α} {t : Token α} (h : resume c l call t outer = .failed e) : OneLine e.quoted := by
  unfold resume at h
  split at h
  · cases h
    exact oneLine_callName call
  · cases h

omit [Scalar α] in
theorem quoted_of_leave {s : Sequence α} (h : leave g c s outer = .failed e) : OneLine e.quoted := by
  unfold leave at h
  split at h
  · cases h
  · exact quoted_of_resume h
  · exact quoted_of_enter h
  · exact quoted_of_resume h

omit [Scalar α] in
theorem quoted_of_operator {m : Machine α} (h : stepOperator g m = .failed e) : OneLine e.quoted := by
  unfold stepOperator at h
  simp only at h
  split at h
  · split at h
    · exact quoted_of_leave h
    · cases h
  · split at h
    · exact quoted_of_leave h
    · cases h
      exact oneLine_empty
  · cases h
  · cases h
    exact oneLine_empty
  · cases h
    exact oneLine_empty

theorem oneLine_lexeme {n : DanglingPoint} (h : c.numeral? = .error n) : OneLine n.lexeme := by
  obtain ⟨-, rfl⟩ := Cursor.error_of_numeral? h
  rw [oneLine_ofList]
  intro hx
  rcases List.mem_append.1 hx with hx | hx
  · exact absurd (Cursor.isDigit_of_mem_digits hx) (by decide)
  · simp at hx

theorem quoted_of_operand? (h : c.operand? (α := α) g = .error e) : OneLine e.quoted := by
  unfold Cursor.operand? at h
  split at h
  · cases h
  · split at h
    · cases h
    · split at h
      · next hn =>
        cases h
        exact oneLine_lexeme hn
      · cases h
      · cases h

theorem quoted_of_operand {m : Machine α} {sign : Bool} (h : stepOperand g m sign = .failed e) : OneLine e.quoted := by
  unfold stepOperand at h
  simp only at h
  split at h
  · next hn =>
    cases h
    exact quoted_of_operand? hn
  · cases h
  · exact quoted_of_enter h
  · split at h
    · split at h
      · cases h
        exact oneLine_empty
      · cases h
    · cases h
    · cases h
      exact oneLine_empty
    · cases h
      split <;> exact oneLine_empty

theorem quoted_of_step {m : Machine α} (h : step g m = .failed e) : OneLine e.quoted := by
  unfold step at h
  split at h
  · split at h
    · cases h
      exact oneLine_empty
    · exact quoted_of_operand h
  · split at h
    · split at h
      · exact quoted_of_leave h
      · cases h
        exact oneLine_empty
    · exact quoted_of_operator h

end Machine

theorem Grammar.oneLine_message {g : Grammar} {cs : List Char} {e : ParseError}
    (h : g.parseChars (α := α) cs = .error e) : OneLine e.message := by
  refine ParseError.oneLine_message ?_
  simp only [parseChars] at h
  split at h
  · cases h
  · obtain ⟨n, -, ⟨s, rest, -, hr⟩ | ⟨e', hf, hr⟩⟩ :=
      Machine.exists_last (g := g) (P := fun _ : Machine α => True) (fun _ _ _ _ => trivial)
        (m := .start (.ofList (trim cs))) trivial
    · simp only [hr, bind, Except.bind, complete] at h
      split at h <;> cases h <;> exact oneLine_empty
    · simp only [hr, bind, Except.bind, Except.error.injEq] at h
      subst h
      exact Machine.quoted_of_step hf

end Formula
