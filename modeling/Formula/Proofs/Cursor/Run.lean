import Mathlib.Data.List.TakeWhile
import Formula.Proofs.Cursor.Numeral
import Formula.Proofs.Grammar.Steps

/-!
Runs of a cursor over a text. Whatever the operations and whatever their order, the cursor stays in its text. An operation
that finds what it looks for moves over exactly that, and one that does not stays where it was; only the spaces before a
symbol are passed over either way.
-/

namespace Formula

namespace Cursor

variable {c d : Cursor}

/-! ## What an operation does -/

/-- `d` stands behind `w` in the same text, and the text since `c` is `w`. -/
structure Consumes (c : Cursor) (w : List Char) (d : Cursor) : Prop where
  text_eq : d.text = c.text
  pos_eq : d.pos = c.pos + w.length
  lexeme_eq : d.lexeme c.pos = w

theorem Moves.consumes {w : List Char} (h : c.Moves w d) : c.Consumes w d := ⟨h.text_eq, h.pos_eq, h.lexeme_eq⟩

/-- The spaces that an operation passes over before it looks for anything. -/
def Operation.blanks : Operation → List Char → List Char
  | symbol, here => here.takeWhile (· == ' ')
  | _, _ => []

/-- The texts that an operation matches, and its answers when it does. -/
inductive Finds : Operation → Answer → List Char → Prop
  | next (x : Char) : Finds .next (.char (some x)) [x]
  | accept (x : Char) : Finds (.accept x) (.char (some x)) [x]
  | acceptAny {set : List Char} {x : Char} : x ∈ set → Finds (.acceptAny set) (.char (some x)) [x]
  | acceptWord (word : List Char) : Finds (.acceptWord word) (.flag true) word
  | skipAll {set w : List Char} : w ≠ [] → (∀ x ∈ w, x ∈ set) → Finds (.skipAll set) (.flag true) w
  | numeral {n : Numeral} : IsNumeral n.text → Finds .numeral (.numeral (.ok (some n))) n.text
  | symbol (s : Symbol) : Finds .symbol (.symbol (some s)) [s.char]
  | rest (w : List Char) : Finds .rest (.text w) w

/-- The answers that report no match. -/
inductive Misses : Operation → Answer → Prop
  | next : Misses .next (.char none)
  | accept (x : Char) : Misses (.accept x) (.char none)
  | acceptAny (set : List Char) : Misses (.acceptAny set) (.char none)
  | acceptWord (word : List Char) : Misses (.acceptWord word) (.flag false)
  | skipAll (set : List Char) : Misses (.skipAll set) (.flag false)
  | numeral : Misses .numeral (.numeral (.ok none))
  | symbol : Misses .symbol (.symbol none)

/-- The answers of operations that only look. -/
inductive Looks (c : Cursor) : Operation → Answer → Prop
  | peek : Looks c .peek (.char c.text[c.pos]?)
  | size : Looks c .size (.count c.text.length)
  | isEmpty : Looks c .isEmpty (.flag (decide (c.text = [])))
  | atEnd : Looks c .atEnd (.flag (decide (c.pos = c.text.length)))
  | lexeme (start : Nat) : Looks c (.lexeme start) (.text (c.text.extract (min start c.pos) c.pos))
  | restAhead : Looks c .restAhead (.text (c.text.drop c.pos))

/-- All that an operation can do. What it matches is the longest text that it could, and without a match there is none that
it could; a point that no digit follows is the one match that is given up halfway. -/
inductive Performed (c : Cursor) : Operation → Answer → Cursor → Prop
  | found {o : Operation} {a : Answer} {w : List Char} {d : Cursor} :
      Finds o a w → c.Consumes (o.blanks c.unread ++ w) d →
      (∀ a' w', Finds o a' w' → o.blanks c.unread ++ w' <+: c.unread → w'.length ≤ w.length) → Performed c o a d
  | missed {o : Operation} {a : Answer} {d : Cursor} :
      Misses o a → c.Consumes (o.blanks c.unread) d →
      (∀ a' w', Finds o a' w' → ¬ o.blanks c.unread ++ w' <+: c.unread) → Performed c o a d
  | refused {w rest : List Char} :
      c.unread = w ++ rest → w ≠ [] → (∀ x ∈ w, x.isDigit) → Dangling rest →
      Performed c .numeral (.numeral (.error ⟨String.ofList (w ++ ['.']), c.pos⟩)) c
  | spaces {d : Cursor} :
      c.Consumes (c.unread.takeWhile (· == ' ')) d → Performed c .skipSpaces (.flag (decide (d.pos < d.text.length))) d
  | sought {d : Cursor} : d.pos ≤ c.text.length → d.text = c.text → Performed c (.seek d.pos) (.flag true) d
  | beyond {pos : Nat} : c.text.length < pos → Performed c (.seek pos) (.flag false) c
  | looked {o : Operation} {a : Answer} : Looks c o a → Performed c o a c

theorem Performed.text_eq {o : Operation} {a : Answer} (h : c.Performed o a d) : d.text = c.text := by
  cases h with
  | found _ hc _ | missed _ hc _ | spaces hc => exact hc.text_eq
  | sought _ ht => exact ht
  | refused | beyond | looked => rfl

/-! ## Each operation -/

theorem acceptIf?_eq_none_iff {p : Char → Bool} : c.acceptIf? p = none ↔ ∀ x, c.unread.head? = some x → p x = false := by
  obtain ⟨read, _ | ⟨y, unread⟩⟩ := c <;> simp [acceptIf?]

theorem head?_of_singleton {x : Char} {here : List Char} (h : [x] <+: here) : here.head? = some x := by
  obtain ⟨t, rfl⟩ := h
  rfl

/-- An operation that matches one character, if it is of the right kind. -/
theorem performed_acceptIf {o : Operation} {p : Char → Bool} (hb : o.blanks c.unread = []) (hm : Misses o (.char none))
    (hf : ∀ a w, Finds o a w ↔ ∃ x, p x ∧ a = .char (some x) ∧ w = [x]) :
    c.Performed o (.char (c.behind (c.acceptIf? p)).1) (c.behind (c.acceptIf? p)).2 := by
  cases h : c.acceptIf? p with
  | none =>
    refine .missed hm (by rw [hb]; exact (Moves.refl c).consumes) fun a w hw hp => ?_
    obtain ⟨x, hx, -, rfl⟩ := (hf a w).1 hw
    rw [hb] at hp
    rw [acceptIf?_eq_none_iff.1 h x (head?_of_singleton hp)] at hx
    cases hx
  | some q =>
    obtain ⟨x, d⟩ := q
    obtain ⟨hmoves, hx⟩ := acceptIf?_moves h
    refine .found ((hf _ [x]).2 ⟨x, hx, rfl, rfl⟩) (by rw [hb]; exact hmoves.consumes) fun a w hw _ => ?_
    obtain ⟨y, -, -, rfl⟩ := (hf a w).1 hw
    exact Nat.le_refl _

theorem performed_next (c : Cursor) : c.Performed .next (c.perform .next).1 (c.perform .next).2 := by
  have hnext : c.next? = c.acceptIf? fun _ => true := by obtain ⟨read, _ | ⟨y, unread⟩⟩ := c <;> rfl
  have h : c.Performed .next (.char (c.behind (c.acceptIf? fun _ => true)).1) (c.behind (c.acceptIf? fun _ => true)).2 := by
    refine performed_acceptIf rfl .next fun a w => ⟨fun hw => ?_, ?_⟩
    · cases hw with
      | next x => exact ⟨x, rfl, rfl, rfl⟩
    · rintro ⟨x, -, rfl, rfl⟩
      exact .next x
  rwa [← hnext] at h

theorem performed_accept (c : Cursor) (x : Char) :
    c.Performed (.accept x) (c.perform (.accept x)).1 (c.perform (.accept x)).2 := by
  refine performed_acceptIf rfl (.accept x) fun a w => ⟨fun hw => ?_, ?_⟩
  · cases hw with
    | accept => exact ⟨x, beq_self_eq_true x, rfl, rfl⟩
  · rintro ⟨y, hy, rfl, rfl⟩
    rw [eq_of_beq hy]
    exact .accept x

theorem performed_acceptAny (c : Cursor) (set : List Char) :
    c.Performed (.acceptAny set) (c.perform (.acceptAny set)).1 (c.perform (.acceptAny set)).2 := by
  refine performed_acceptIf rfl (.acceptAny set) fun a w => ⟨fun hw => ?_, ?_⟩
  · cases hw with
    | acceptAny hx => exact ⟨_, List.contains_iff_mem.2 hx, rfl, rfl⟩
  · rintro ⟨y, hy, rfl, rfl⟩
    exact .acceptAny (List.contains_iff_mem.1 hy)

theorem performed_acceptWord (c : Cursor) (word : List Char) :
    c.Performed (.acceptWord word) (c.perform (.acceptWord word)).1 (c.perform (.acceptWord word)).2 := by
  by_cases h : word <+: c.unread
  · obtain ⟨rest, hr⟩ := h
    obtain ⟨d, hd, -⟩ := acceptWord?_prefix hr.symm
    rw [perform, hd]
    refine .found (.acceptWord word) (acceptWord?_moves hd).consumes fun a w hw _ => ?_
    cases hw with
    | acceptWord => exact Nat.le_refl _
  · rw [perform, acceptWord?_eq_none h]
    refine .missed (.acceptWord word) (Moves.refl c).consumes fun a w hw hp => ?_
    cases hw with
    | acceptWord => exact h hp

theorem isSome_acceptIf? (c : Cursor) (p : Char → Bool) : (c.acceptIf? p).isSome = !(c.unread.takeWhile p).isEmpty := by
  obtain ⟨read, _ | ⟨y, unread⟩⟩ := c
  · rfl
  · cases h : p y <;> simp [acceptIf?, h]

theorem prefix_takeWhile {p : Char → Bool} {w here : List Char} (hw : ∀ x ∈ w, p x) (hp : w <+: here) :
    w <+: here.takeWhile p := by
  obtain ⟨t, rfl⟩ := hp
  rw [List.takeWhile_append_of_pos hw]
  exact List.prefix_append w _

theorem performed_skipAll (c : Cursor) (set : List Char) :
    c.Performed (.skipAll set) (c.perform (.skipAll set)).1 (c.perform (.skipAll set)).2 := by
  have hmoves := skipWhile_moves set.contains c
  -- the run that is skipped has every match in it, so without a run there is none
  have hlongest : ∀ a w, Finds (.skipAll set) a w → w <+: c.unread →
      w ≠ [] ∧ w <+: c.unread.takeWhile set.contains := by
    intro a w hw hp
    cases hw with
    | skipAll hne hset => exact ⟨hne, prefix_takeWhile (fun x hx => List.contains_iff_mem.2 (hset x hx)) hp⟩
  rw [perform, isSome_acceptIf?]
  by_cases h : c.unread.takeWhile set.contains = []
  · rw [h] at hmoves hlongest ⊢
    exact .missed (.skipAll set) hmoves.consumes fun a w hw hp =>
      (hlongest a w hw hp).1 (List.prefix_nil.1 (hlongest a w hw hp).2)
  · have hflag : (!(c.unread.takeWhile set.contains).isEmpty) = true := by simpa using h
    rw [hflag]
    refine .found (.skipAll h fun x hx => ?_) hmoves.consumes fun a w hw hp => (hlongest a w hw hp).2.length_le
    exact List.contains_iff_mem.1 (List.all_eq_true.1 List.all_takeWhile x hx)

theorem performed_numeral (c : Cursor) : c.Performed .numeral (c.perform .numeral).1 (c.perform .numeral).2 := by
  by_cases hd : c.digits = []
  · rw [perform_numeral_none (if_pos hd)]
    refine .missed .numeral (Moves.refl c).consumes fun a w hw hp => ?_
    cases hw with
    | numeral hn =>
      obtain ⟨x, hx, hdigit⟩ := hn.head_isDigit hp
      rw [digits_eq_nil_iff.1 hd x hx] at hdigit
      cases hdigit
  by_cases hb : Dangling c.skipDigits.unread
  · rw [perform_numeral_error (numeral?_dangling hd hb)]
    exact .refused (skipDigits_moves c).unread hd (fun x => isDigit_of_mem_digits) hb
  · obtain ⟨n, d, hn⟩ := numeral?_of_not_dangling hd hb
    rw [perform_numeral_some hn]
    have hl := longest_of_numeral? hn
    refine .found (.numeral hl.isNumeral) (numeral?_moves hn).1.consumes fun a w hw hp => ?_
    cases hw with
    | numeral hw => exact (hl.prefix_text hw hp).length_le

theorem performed_symbol (c : Cursor) : c.Performed .symbol (c.perform .symbol).1 (c.perform .symbol).2 := by
  have hmoves : c.Moves (Operation.symbol.blanks c.unread) c.skipSpaces := skipWhile_moves (· == ' ') c
  rw [perform]
  cases h : c.skipSpaces.symbolHere? with
  | none =>
    refine .missed .symbol hmoves.consumes fun a w hw hp => ?_
    cases hw with
    | symbol s =>
      -- a symbol behind all the spaces would be seen from there
      obtain ⟨rest, hr⟩ := hp
      rw [List.append_assoc] at hr
      have hu : c.skipSpaces.unread = s.char :: rest := (List.append_cancel_left (hr.trans hmoves.unread)).symm
      obtain ⟨d, hd, -⟩ := symbolHere?_char s hu
      cases hd.symm.trans h
  | some q =>
    obtain ⟨s, d⟩ := q
    refine .found (.symbol s) (hmoves.trans (symbolHere?_moves h)).consumes fun a w hw _ => ?_
    cases hw with
    | symbol => exact Nat.le_refl _

theorem atEnd_eq (c : Cursor) : c.atEnd = decide (c.pos = c.text.length) := by
  rw [← size_eq]
  cases h : c.unread <;> simp [atEnd, size, pos, h]

theorem isEmpty_eq (c : Cursor) : c.isEmpty = decide (c.text = []) := by
  cases hr : c.read <;> cases hu : c.unread <;> simp [isEmpty, text, hr, hu]

theorem performed_skipSpaces (c : Cursor) :
    c.Performed .skipSpaces (c.perform .skipSpaces).1 (c.perform .skipSpaces).2 := by
  have hleft : (!c.skipSpaces.atEnd) = decide (c.skipSpaces.pos < c.skipSpaces.text.length) := by
    have hle := c.skipSpaces.pos_le_size
    rw [size_eq] at hle
    rw [atEnd_eq, ← decide_not, decide_eq_decide]
    omega
  rw [perform, hleft]
  exact .spaces (skipWhile_moves _ c).consumes

theorem performed_seek (c : Cursor) (pos : Nat) :
    c.Performed (.seek pos) (c.perform (.seek pos)).1 (c.perform (.seek pos)).2 := by
  rw [perform]
  cases h : c.seek? pos with
  | none =>
    refine .beyond ?_
    rw [← size_eq]
    simpa [seek?] using h
  | some d =>
    obtain ⟨ht, rfl⟩ := seek?_eq_some h
    refine .sought ?_ ht
    rw [← ht, ← size_eq]
    exact d.pos_le_size

theorem performed_rest (c : Cursor) : c.Performed .rest (c.perform .rest).1 (c.perform .rest).2 := by
  have hmoves : c.Moves c.unread c.skipRest := by
    have h := skipWhile_moves (fun _ => true) c
    rwa [List.takeWhile_eq_self_iff.2 fun _ _ => rfl] at h
  exact .found (.rest c.unread) hmoves.consumes fun _ _ _ hp => List.IsPrefix.length_le hp

theorem lexeme_eq_extract (c : Cursor) (start : Nat) : c.lexeme start = c.text.extract (min start c.pos) c.pos := by
  have hle : min start c.pos ≤ c.read.reverse.length := by
    rw [List.length_reverse]
    exact Nat.min_le_right _ _
  have hstart : c.read.length - (c.pos - start) = min start c.pos := by
    rw [pos]
    omega
  rw [lexeme, List.reverse_take, hstart, List.extract_eq_take_drop, text, List.drop_append_of_le_length hle, List.take_left']
  rw [List.length_drop, List.length_reverse]
  rfl

theorem performed (c : Cursor) (o : Operation) : c.Performed o (c.perform o).1 (c.perform o).2 := by
  cases o with
  | next => exact c.performed_next
  | seek pos => exact c.performed_seek pos
  | accept x => exact c.performed_accept x
  | acceptAny set => exact c.performed_acceptAny set
  | acceptWord word => exact c.performed_acceptWord word
  | skipAll set => exact c.performed_skipAll set
  | skipSpaces => exact c.performed_skipSpaces
  | rest => exact c.performed_rest
  | numeral => exact c.performed_numeral
  | symbol => exact c.performed_symbol
  | peek =>
    rw [perform, peek?, ← getElem?_pos]
    exact .looked .peek
  | size =>
    rw [perform, size_eq]
    exact .looked .size
  | isEmpty =>
    rw [perform, isEmpty_eq]
    exact .looked .isEmpty
  | atEnd =>
    rw [perform, atEnd_eq]
    exact .looked .atEnd
  | lexeme start =>
    rw [perform, lexeme_eq_extract]
    exact .looked (.lexeme start)
  | restAhead =>
    rw [perform, ← drop_pos]
    exact .looked .restAhead

/-! ## A whole run -/

/-- Where the cursor stands after a list of operations. -/
def after (c : Cursor) (os : List Operation) : Cursor := os.foldl (fun c o => (c.perform o).2) c

theorem after_concat (c : Cursor) (os : List Operation) (o : Operation) :
    c.after (os ++ [o]) = ((c.after os).perform o).2 := by
  rw [after, List.foldl_append]
  rfl

theorem trace_concat (c : Cursor) (os : List Operation) (o : Operation) :
    c.trace (os ++ [o]) = c.trace os ++ [(((c.after os).perform o).1, (c.after (os ++ [o])).pos)] := by
  induction os generalizing c with
  | nil => rfl
  | cons o' os ih => exact congrArg (_ :: ·) (ih (c.perform o').2)

theorem text_after (c : Cursor) (os : List Operation) : (c.after os).text = c.text := by
  induction os generalizing c with
  | nil => rfl
  | cons o os ih => exact (ih (c.perform o).2).trans (c.performed o).text_eq

/-- However a cursor has come to where it stands in a text, it has not left the text, any part of what it has read can be
told, and its next answer and its next place are those that the operation allows. -/
theorem run_in_text (text : List Char) (os : List Operation) (o : Operation) :
    let c := (ofList text).after os
    let d := (ofList text).after (os ++ [o])
    c.text = text ∧ c.pos ≤ text.length ∧
    (∀ start, c.lexeme start = text.extract (min start c.pos) c.pos) ∧
    ∃ a, (ofList text).trace (os ++ [o]) = (ofList text).trace os ++ [(a, d.pos)] ∧ c.Performed o a d := by
  intro c d
  have ht : c.text = text := text_after (ofList text) os
  refine ⟨ht, ?_, fun start => ?_, _, trace_concat _ os o, ?_⟩
  · rw [← ht, ← size_eq]
    exact c.pos_le_size
  · rw [lexeme_eq_extract, ht]
  · have h := c.performed o
    rwa [← after_concat] at h

/-- A word that fails midway and a number that fails behind its point are given back. -/
example : (ofList "arc12.)".toList).trace
    [.acceptWord "arccos".toList, .acceptWord "arc".toList, .numeral, .next, .lexeme 2] =
      [(.flag false, 0), (.flag true, 3), (.numeral (.error ⟨"12.", 3⟩), 3), (.char (some '1'), 4), (.text ['c', '1'], 4)] :=
  rfl

end Cursor

end Formula
