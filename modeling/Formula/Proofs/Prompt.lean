import Formula.Prompt
import Formula.Proofs.Grammar.Acceptance
import Formula.Proofs.Line

/-!
Sessions at the prompt. All that a line can change is `x`, and only by an assignment that succeeds; so the lines that did
not assign can be taken out of a session, and neither the answers to the other lines nor the last `x` tell.
-/

namespace Formula.Prompt

open Text

variable {α : Type} [Scalar α]

/-- The line gives `x` the value `v`: it is `x`, blanks, `=` and a formula that evaluates to `v`, which is a number. -/
def Assigns (x : α) (line : List Char) (v : α) : Prop :=
  ∃ (blanks rhs : List Char) (s : Sequence α), trim line = 'x' :: (blanks ++ '=' :: rhs) ∧ (∀ c ∈ blanks, isBlank c) ∧
    grammar.parseChars rhs = .ok s ∧ s.eval x = v ∧ Scalar.isNaN v = false

/-- What is printed for each line, if anything. -/
def answers (x : α) : List (List Char) → List (Option String)
  | [] => []
  | line :: lines => (respond x line).2 :: answers (respond x line).1 lines

/-- The value of `x` behind the lines. -/
def after (x : α) (lines : List (List Char)) : α := lines.foldl (fun x line => (respond x line).1) x

/-- The entries at the indices kept. -/
def kept {β : Type} (keep : Nat → Bool) : List β → List β
  | [] => []
  | b :: bs =>
    let rest := kept (fun i => keep (i + 1)) bs
    if keep 0 then b :: rest else rest

/-- No line stands at the index, or one that leaves `x` alone. -/
def Idle (x : α) (lines : List (List Char)) (i : Nat) : Prop :=
  ∀ line, lines[i]? = some line → ∀ v, ¬ Assigns (session x (lines.take i)).1 line v

/-! ## One line -/

theorem assigned?_eq_some {body rhs : List Char} :
    assigned? body = some rhs ↔ ∃ blanks, body = 'x' :: (blanks ++ '=' :: rhs) ∧ ∀ c ∈ blanks, isBlank c := by
  constructor
  · intro h
    unfold assigned? at h
    split at h
    · next rest =>
      split at h
      · next hrest =>
        cases h
        refine ⟨rest.takeWhile isBlank, ?_, fun c hc => List.all_eq_true.1 List.all_takeWhile c hc⟩
        rw [← hrest, trimStart, List.takeWhile_append_dropWhile]
      · cases h
    · cases h
  · rintro ⟨blanks, rfl, hb⟩
    have ht : trimStart (blanks ++ '=' :: rhs) = '=' :: rhs := by
      rw [trimStart, List.dropWhile_append_of_pos hb, List.dropWhile_cons_of_neg (by decide)]
    simp [assigned?, ht]

theorem assigns_iff {x v : α} {line : List Char} : Assigns x line v ↔ ∃ rhs s, assigned? (trim line) = some rhs ∧
    grammar.parseChars rhs = .ok s ∧ s.eval x = v ∧ Scalar.isNaN v = false := by
  simp only [Assigns, assigned?_eq_some]
  constructor
  · rintro ⟨blanks, rhs, s, ht, hb, h⟩
    exact ⟨rhs, s, ⟨blanks, ht, hb⟩, h⟩
  · rintro ⟨rhs, s, ⟨blanks, ht, hb⟩, h⟩
    exact ⟨blanks, rhs, s, ht, hb, h⟩

theorem Assigns.unique {x v w : α} {line : List Char} (hv : Assigns x line v) (hw : Assigns x line w) : v = w := by
  obtain ⟨rhs, s, ha, hs, rfl, -⟩ := assigns_iff.1 hv
  obtain ⟨rhs', s', ha', hs', rfl, -⟩ := assigns_iff.1 hw
  rw [ha, Option.some.injEq] at ha'
  subst ha'
  rw [hs, Except.ok.injEq] at hs'
  rw [hs']

/-- All that can become of a line: nothing, an assignment, or a text about it. -/
inductive Responds (x : α) (line : List Char) : α × Option String → Prop
  | blank : trim line = [] → Responds x line (x, none)
  | assigned {v : α} {out : String} : Assigns x line v → OneLine out → Responds x line (v, some out)
  | unassigned {out : String} : trim line ≠ [] → (∀ v, ¬ Assigns x line v) → OneLine out → Responds x line (x, some out)

section Step

variable (htext : ∀ v : α, OneLine (Scalar.text v))

omit [Scalar α] in
theorem oneLine_complaint {e : ParseError} (h : OneLine e.message) : OneLine (complaint e) :=
  oneLine_append.2 ⟨oneLine_ofList.2 (by decide), h⟩

include htext in
theorem oneLine_evaluate (x : α) (body : List Char) : OneLine (evaluate x body) := by
  unfold evaluate
  split
  · next he => exact oneLine_complaint (Grammar.oneLine_message he)
  · next s _ =>
    have hs : OneLine s.text :=
      s.oneLine_render (by rintro (_ | _) <;> exact oneLine_ofList.2 (by decide)) htext
    simp only [oneLine_append]
    exact ⟨⟨hs, oneLine_ofList.2 (by decide)⟩, htext _⟩

include htext in
theorem responds_assign {x : α} {line rhs : List Char} (ha : assigned? (trim line) = some rhs) :
    Responds x line ((assign x rhs).1, some (assign x rhs).2) := by
  have hne : trim line ≠ [] := by
    intro ht
    rw [ht] at ha
    cases ha
  unfold assign
  split
  · next he =>
    refine .unassigned hne (fun v hv => ?_) (oneLine_complaint (Grammar.oneLine_message he))
    obtain ⟨rhs', s, ha', hs, -⟩ := assigns_iff.1 hv
    cases ha.symm.trans ha'
    cases he.symm.trans hs
  · next s hs =>
    dsimp only
    split
    · next hn =>
      refine .unassigned hne (fun v hv => ?_) (oneLine_append.2 ⟨oneLine_ofList.2 (by decide), htext _⟩)
      obtain ⟨rhs', s', ha', hs', rfl, hv⟩ := assigns_iff.1 hv
      cases ha.symm.trans ha'
      cases hs.symm.trans hs'
      rw [hn] at hv
      cases hv
    · next hn =>
      exact .assigned (assigns_iff.2 ⟨rhs, s, ha, hs, rfl, by simpa using hn⟩)
        (oneLine_append.2 ⟨oneLine_ofList.2 (by decide), htext _⟩)

include htext in
theorem responds (x : α) (line : List Char) : Responds x line (respond x line) := by
  unfold respond
  split
  · next ht => exact .blank ht
  · next hne =>
    cases ha : assigned? (trim line) with
    | some rhs => exact responds_assign htext ha
    | none =>
      refine .unassigned hne (fun v hv => ?_) (oneLine_evaluate htext x _)
      obtain ⟨rhs, s, ha', -⟩ := assigns_iff.1 hv
      cases ha.symm.trans ha'

end Step

namespace Responds

variable {x v : α} {line : List Char} {r : α × Option String}

theorem answer (h : Responds x line r) : (r.2 = none ↔ trim line = []) ∧ ∀ text, r.2 = some text → OneLine text := by
  cases h with
  | blank ht => simp [ht]
  | @assigned v out hv ho =>
    obtain ⟨blanks, rhs, s, ht, -⟩ := hv
    simpa [ht] using ho
  | unassigned ht _ ho => simpa [ht] using ho

theorem fst_of_assigns (h : Responds x line r) (hv : Assigns x line v) : r.1 = v := by
  cases h with
  | blank ht =>
    obtain ⟨blanks, rhs, s, ht', -⟩ := hv
    rw [ht] at ht'
    cases ht'
  | assigned hw _ => exact hw.unique hv
  | unassigned _ hn _ => exact absurd hv (hn v)

theorem fst_of_not_assigns (h : Responds x line r) (hn : ∀ v, ¬ Assigns x line v) : r.1 = x := by
  cases h with
  | blank | unassigned => rfl
  | assigned hv _ => exact absurd hv (hn _)

theorem isNaN_fst (h : Responds x line r) (hx : Scalar.isNaN x = false) : Scalar.isNaN r.1 = false := by
  cases h with
  | blank | unassigned => exact hx
  | assigned hv _ =>
    obtain ⟨_, _, _, _, _, _, _, hnum⟩ := hv
    exact hnum

end Responds

/-! ## A whole session -/

theorem after_cons (x : α) (line : List Char) (lines : List (List Char)) :
    after x (line :: lines) = after (respond x line).1 lines := rfl

theorem session_eq (x : α) (lines : List (List Char)) :
    session x lines = (after x lines, (answers x lines).filterMap id) := by
  induction lines generalizing x with
  | nil => rfl
  | cons line lines ih =>
    simp only [session, ih, answers, after_cons]
    cases (respond x line).2 <;> simp

theorem session_fst (x : α) (lines : List (List Char)) : (session x lines).1 = after x lines := by rw [session_eq]

theorem after_take_succ (x : α) {lines : List (List Char)} {i : Nat} {line : List Char} (h : lines[i]? = some line) :
    after x (lines.take (i + 1)) = (respond (after x (lines.take i)) line).1 := by
  rw [List.take_add_one, h, after, List.foldl_append]
  rfl

theorem length_answers (x : α) (lines : List (List Char)) : (answers x lines).length = lines.length := by
  induction lines generalizing x with
  | nil => rfl
  | cons line lines ih => rw [answers, List.length_cons, List.length_cons, ih]

theorem getElem?_answers (x : α) {lines : List (List Char)} {i : Nat} {line : List Char} (h : lines[i]? = some line) :
    (answers x lines)[i]? = some (respond (after x (lines.take i)) line).2 := by
  induction lines generalizing x i with
  | nil => simp at h
  | cons l lines ih =>
    cases i with
    | zero =>
      cases h
      rfl
    | succ i => exact ih (respond x l).1 (by simpa using h)

theorem Idle.tail {x : α} {line : List Char} {lines : List (List Char)} {i : Nat} (h : Idle x (line :: lines) (i + 1)) :
    Idle (respond x line).1 lines i := by
  intro l hl v hv
  refine h l (by simpa using hl) v ?_
  rwa [session_fst] at hv ⊢

section Run

variable (htext : ∀ v : α, OneLine (Scalar.text v))

include htext in
theorem isNaN_after {x : α} (hx : Scalar.isNaN x = false) (lines : List (List Char)) :
    Scalar.isNaN (after x lines) = false := by
  induction lines generalizing x with
  | nil => exact hx
  | cons line lines ih => exact ih ((responds htext x line).isNaN_fst hx)

include htext in
theorem after_of_idle {x : α} {lines : List (List Char)} {i : Nat} (h : Idle x lines i) :
    after x (lines.take (i + 1)) = after x (lines.take i) := by
  cases hl : lines[i]? with
  | none => rw [List.take_add_one, hl, Option.toList_none, List.append_nil]
  | some line =>
    rw [after_take_succ x hl]
    have hn := h line hl
    rw [session_fst] at hn
    exact (responds htext _ line).fst_of_not_assigns hn

include htext in
-- On the lines: an idle one hands `x` to the next as it has found it.
theorem kept_lawful (x : α) (lines : List (List Char)) (keep : Nat → Bool) (h : ∀ i, keep i = false → Idle x lines i) :
    answers x (kept keep lines) = kept keep (answers x lines) ∧ after x (kept keep lines) = after x lines := by
  induction lines generalizing x keep with
  | nil => exact ⟨rfl, rfl⟩
  | cons line lines ih =>
    have hrest := ih (respond x line).1 (fun i => keep (i + 1)) fun i hk => (h (i + 1) hk).tail
    rw [kept, answers, kept, after_cons]
    by_cases hk : keep 0
    · simp only [hk, if_true, answers, after_cons]
      exact ⟨congrArg _ hrest.1, hrest.2⟩
    · have hx : (respond x line).1 = x := after_of_idle htext (h 0 (by simpa using hk))
      simp only [hk, Bool.false_eq_true, if_false]
      rw [hx] at hrest ⊢
      exact hrest

end Run

/-- In a session from zero `x` is always a number; a line that assigns gives it the new value and any other leaves it; a
line is answered by one line of text, or by none if it is blank; and lines that do not assign can be left out, with the
same answers to the lines kept and the same `x` in the end. -/
theorem session_lawful (lines : List (List Char)) :
    Scalar.isNaN (session (0.0 : Float) lines).1 = false ∧
    (∀ (i : Nat) (line : List Char) (v : Float), lines[i]? = some line → Assigns (session 0.0 (lines.take i)).1 line v →
      (session 0.0 (lines.take (i + 1))).1 = v) ∧
    (∀ i, Idle (0.0 : Float) lines i → (session (0.0 : Float) (lines.take (i + 1))).1 = (session 0.0 (lines.take i)).1) ∧
    ((session (0.0 : Float) lines).2 = (answers (0.0 : Float) lines).filterMap id ∧
      (answers (0.0 : Float) lines).length = lines.length ∧
      ∀ (i : Nat) (line : List Char), lines[i]? = some line → ∃ out, (answers (0.0 : Float) lines)[i]? = some out ∧
        (out = none ↔ trim line = []) ∧ ∀ text, out = some text → OneLine text) ∧
    ∀ keep : Nat → Bool, (∀ i, keep i = false → Idle (0.0 : Float) lines i) →
      answers (0.0 : Float) (kept keep lines) = kept keep (answers (0.0 : Float) lines) ∧
        (session (0.0 : Float) (kept keep lines)).1 = (session 0.0 lines).1 := by
  have htext : ∀ v : Float, OneLine (Scalar.text v) := Decimal.oneLine_shortestText
  simp only [session_fst]
  refine ⟨isNaN_after htext (by decide +kernel) lines, fun i line v hl hv => ?_, fun i => after_of_idle htext,
    ⟨?_, length_answers _ _, fun i line hl => ?_⟩, kept_lawful htext _ lines⟩
  · rw [after_take_succ _ hl]
    exact (responds htext _ line).fst_of_assigns hv
  · rw [session_eq]
  · exact ⟨_, getElem?_answers _ hl, (responds htext _ line).answer⟩

theorem assigns_two (x : Float) : Assigns x "x = 2".toList (Numeral.value ⟨['2'], []⟩) := by
  have hl : Numeral.Longest ⟨['2'], []⟩ ['2'] [] := ⟨rfl, by simp, by simp, by simp, by simp, by simp⟩
  have hs : grammar.parse (α := Float) " 2" = .ok [.number (Numeral.value ⟨['2'], []⟩)] :=
    (Grammar.parse_ok_iff_reads _ " 2" _ (by decide)).2 ⟨.number (Numeral.value ⟨['2'], []⟩),
      ⟨_, .single (.plain (.leaf ⟨0, rfl⟩ (by decide) (.numeral (by decide) hl))),
        .sum (.product (.signed (.power (.operand _))))⟩, by decide, rfl⟩
  exact ⟨[' '], [' ', '2'], _, by decide, List.forall_mem_singleton.2 rfl, hs, rfl, by decide +kernel⟩

theorem session_lawful_two :
    (session (0.0 : Float) ["x + 1".toList, "x = 2".toList]).1 = Numeral.value ⟨['2'], []⟩ ∧
    (session (0.0 : Float) ["x + 1".toList]).1 = 0.0 ∧
    answers (0.0 : Float) ["x = 2".toList] = (answers (0.0 : Float) ["x + 1".toList, "x = 2".toList]).drop 1 := by
  have hidle : Idle (0.0 : Float) ["x + 1".toList, "x = 2".toList] 0 := by
    rintro line ⟨⟩ v hv
    obtain ⟨rhs, s, ha, -⟩ := assigns_iff.1 hv
    rw [show assigned? (trim "x + 1".toList) = none by decide] at ha
    cases ha
  obtain ⟨-, hset, hleave, -, hkept⟩ := session_lawful ["x + 1".toList, "x = 2".toList]
  refine ⟨hset 1 _ _ rfl (assigns_two _), hleave 0 hidle, (hkept (· != 0) fun i hi => ?_).1⟩
  obtain rfl : i = 0 := by simpa using hi
  exact hidle

end Formula.Prompt
