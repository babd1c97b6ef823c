import Formula.Cursor.Operation
import Formula.Proofs.Grammar.Leaf

/-!
Numerals under a cursor. What is read is the longest text that has the form of a numeral. Where no digit stands nothing is
read, and digits with a point that no digit follows are refused, the cursor left before them.
-/

namespace Formula

/-! ## The form of a numeral -/

/-- The texts that `[0-9]+(\.[0-9]+)?` matches. -/
inductive IsNumeral : List Char → Prop
  | whole {w : List Char} : w ≠ [] → (∀ x ∈ w, x.isDigit) → IsNumeral w
  | pointed {w f : List Char} :
      w ≠ [] → (∀ x ∈ w, x.isDigit) → f ≠ [] → (∀ x ∈ f, x.isDigit) → IsNumeral (w ++ '.' :: f)

/-- A point that no digit follows. -/
def Dangling (rest : List Char) : Prop := ∃ t, rest = '.' :: t ∧ ∀ x, t.head? = some x → x.isDigit = false

theorem count_point_digits {w : List Char} (h : ∀ x ∈ w, x.isDigit) : w.count '.' = 0 :=
  List.count_eq_zero.2 fun hm => absurd (h _ hm) (by decide)

namespace IsNumeral

variable {w : List Char}

theorem head_isDigit (h : IsNumeral w) {here : List Char} (hp : w <+: here) : ∃ x, here.head? = some x ∧ x.isDigit := by
  obtain ⟨t, rfl⟩ := hp
  cases h with
  | whole hw hd | pointed hw hd =>
    obtain ⟨x, w, rfl⟩ := List.exists_cons_of_ne_nil hw
    exact ⟨x, rfl, hd x List.mem_cons_self⟩

theorem isDigit_or (h : IsNumeral w) {x : Char} (hx : x ∈ w) : x.isDigit ∨ x = '.' := by
  cases h with
  | whole _ hd => exact .inl (hd x hx)
  | pointed _ hd _ hf =>
    rcases List.mem_append.1 hx with hx | hx
    · exact .inl (hd x hx)
    · rcases List.mem_cons.1 hx with rfl | hx
      · exact .inr rfl
      · exact .inl (hf x hx)

theorem count_point_le (h : IsNumeral w) : w.count '.' ≤ 1 := by
  cases h with
  | whole _ hd => simp [count_point_digits hd]
  | pointed _ hd _ hf => simp [count_point_digits hd, count_point_digits hf]

end IsNumeral

namespace Numeral

variable {n : Numeral} {here rest w : List Char}

theorem point_mem_text (h : n.fraction ≠ []) : '.' ∈ n.text := by simp [text, h]

namespace Longest

theorem isNumeral (h : n.Longest here rest) : IsNumeral n.text := by
  by_cases hf : n.fraction = []
  · have ht : n.text = n.whole := by simp [Numeral.text, hf]
    rw [ht]
    exact .whole h.whole_ne_nil h.whole_digits
  · have ht : n.text = n.whole ++ '.' :: n.fraction := by simp [Numeral.text, hf]
    rw [ht]
    exact .pointed h.whole_ne_nil h.whole_digits hf h.fraction_digits

/-- Every numeral at the front of the text is at the front of the longest one. -/
theorem prefix_text (h : n.Longest here rest) (hw : IsNumeral w) (hp : w <+: here) : w <+: n.text := by
  have hn : n.text <+: here := ⟨rest, h.text.symm⟩
  rcases List.prefix_or_prefix_of_prefix hp hn with hp' | ⟨v, rfl⟩
  · exact hp'
  have hv : v <+: rest := by
    rw [h.text] at hp
    exact (List.prefix_append_right_inj n.text).1 hp
  cases v with
  | nil => simp
  | cons x v =>
    -- what follows the longest numeral would be a second point
    obtain ⟨t, rfl⟩ := hv
    exfalso
    rcases hw.isDigit_or (x := x) (by simp) with hx | rfl
    · rw [h.digit x rfl] at hx
      cases hx
    · have hone : 1 ≤ n.text.count '.' :=
        List.one_le_count_iff.2 (point_mem_text fun hf => h.point hf rfl)
      have := hw.count_point_le
      rw [List.count_append, List.count_cons_self] at this
      omega

end Longest

end Numeral

/-! ## The cursor -/

namespace Cursor

variable {c : Cursor}

theorem numeral?_dangling (hd : c.digits ≠ []) (h : Dangling c.skipDigits.unread) :
    c.numeral? = .error ⟨String.ofList (c.digits ++ ['.']), c.pos⟩ := by
  obtain ⟨t, ht, hdigit⟩ := h
  obtain ⟨point, hp, rfl⟩ := accept?_head ht
  rw [numeral?, if_neg hd, hp]
  exact if_pos (digits_eq_nil_iff.2 hdigit)

theorem numeral?_of_not_dangling (hd : c.digits ≠ []) (h : ¬ Dangling c.skipDigits.unread) :
    ∃ n d, c.numeral? = .ok (some (n, d)) := by
  rw [numeral?, if_neg hd]
  cases hp : c.skipDigits.accept? '.' with
  | none => exact ⟨_, _, rfl⟩
  | some point =>
    by_cases hf : point.digits = []
    · exact absurd ⟨point.unread, (accept?_moves hp).unread, digits_eq_nil_iff.1 hf⟩ h
    · exact ⟨_, _, if_neg hf⟩

theorem perform_numeral_error {e : DanglingPoint} (h : c.numeral? = .error e) :
    c.perform .numeral = (.numeral (.error e), c) := by
  rw [perform, h]

theorem perform_numeral_none (h : c.numeral? = .ok none) : c.perform .numeral = (.numeral (.ok none), c) := by
  rw [perform, h]
  rfl

theorem perform_numeral_some {n : Numeral} {d : Cursor} (h : c.numeral? = .ok (some (n, d))) :
    c.perform .numeral = (.numeral (.ok (some n)), d) := by
  rw [perform, h]
  rfl

/-- Of the unread text the digits at its front, as many as there are, decide with what stands behind them: without a digit
nothing is found, with a dangling point the digits are refused, and otherwise the longest numeral is read, so that what is
behind it could not belong to it. -/
theorem reads_longest_numeral (c : Cursor) :
    let digits := c.unread.takeWhile Char.isDigit
    let behind := c.unread.dropWhile Char.isDigit
    (c.perform .numeral = (.numeral (.ok none), c) ↔ digits = []) ∧
    (c.perform .numeral = (.numeral (.error ⟨String.ofList (digits ++ ['.']), c.pos⟩), c) ↔
      digits ≠ [] ∧ Dangling behind) ∧
    (digits ≠ [] ∧ ¬ Dangling behind → ∃ n d, c.perform .numeral = (.numeral (.ok (some n)), d) ∧
      c.unread = n.text ++ d.unread ∧ d.text = c.text ∧ d.pos = c.pos + n.text.length ∧ d.lexeme c.pos = n.text ∧
      IsNumeral n.text ∧ (∀ w, IsNumeral w → w <+: c.unread → w <+: n.text) ∧
      (∀ x, d.peek? = some x → x.isDigit = false) ∧ (d.peek? = some '.' → '.' ∈ n.text)) := by
  intro digits behind
  by_cases hd : digits = []
  · have hp : c.perform .numeral = _ := perform_numeral_none (if_pos hd)
    exact ⟨iff_of_true hp hd, by simp [hp, hd], fun h => absurd hd h.1⟩
  by_cases hb : Dangling behind
  · have hp : c.perform .numeral = _ := perform_numeral_error (numeral?_dangling hd hb)
    exact ⟨by simp [hp, hd], iff_of_true hp ⟨hd, hb⟩, fun h => absurd hb h.2⟩
  · obtain ⟨n, d, hn⟩ := numeral?_of_not_dangling hd hb
    have hp := perform_numeral_some hn
    have hm := (numeral?_moves hn).1
    have hl := longest_of_numeral? hn
    refine ⟨by simp [hp, hd], by simp [hp, hb], fun _ => ⟨n, d, hp, hm.unread, hm.text_eq, hm.pos_eq, hm.lexeme_eq,
      hl.isNumeral, fun w => hl.prefix_text, hl.digit, fun hpoint => ?_⟩⟩
    exact Numeral.point_mem_text fun hf => hl.point hf hpoint

/-- The second point of `12.5.7` does not belong to the numeral. -/
theorem reads_longest_numeral_points :
    let c : Cursor := ⟨['('], ['1', '2', '.', '5', '.', '7']⟩
    let d : Cursor := ⟨['5', '.', '2', '1', '('], ['.', '7']⟩
    (['1', '2'] ≠ [] ∧ ¬ Dangling ['.', '5', '.', '7']) ∧
      c.perform .numeral = (.numeral (.ok (some ⟨['1', '2'], ['5']⟩)), d) ∧
      d.lexeme c.pos = ['1', '2', '.', '5'] ∧ ∀ w, IsNumeral w → w <+: c.unread → w <+: ['1', '2', '.', '5'] := by
  intro c d
  have hb : ¬ Dangling ['.', '5', '.', '7'] := by
    rintro ⟨t, ht, hdigit⟩
    cases ht
    exact absurd (hdigit '5' rfl) (by decide)
  have hfound : ['1', '2'] ≠ [] ∧ ¬ Dangling ['.', '5', '.', '7'] := ⟨by simp, hb⟩
  obtain ⟨n, e, hp, -, -, -, hlexeme, -, hlongest, -⟩ := (reads_longest_numeral c).2.2 hfound
  have he : (.numeral (.ok (some n)), e) = ((.numeral (.ok (some ⟨['1', '2'], ['5']⟩)) : Answer), d) := hp.symm.trans rfl
  cases he
  exact ⟨hfound, rfl, hlexeme, hlongest⟩

end Cursor

end Formula
