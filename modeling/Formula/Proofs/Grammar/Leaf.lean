import Formula.Proofs.Grammar.Derivation

/-!
Operands under a cursor are those of the grammar: the search through names, constants, numerals and words of functions
finds exactly what the grammar allows at the front of the unread text.
-/

namespace Formula

variable {α : Type}

theorem Grammar.nameAt?_prefix {g : Grammar} {here : List Char} {p : String × Slot} (h : g.nameAt? here = some p) :
    p ∈ g.names ∧ p.1.toList ≠ [] ∧ p.1.toList <+: here := by
  have hp := List.find?_some h
  simp only [Bool.and_eq_true, List.isPrefixOf_iff_prefix, Bool.not_eq_true', String.isEmpty_eq_false_iff] at hp
  exact ⟨List.mem_of_find?_eq_some h, by simpa using hp.1, hp.2⟩

namespace Cursor

variable {c d : Cursor} {rest : List Char}

/-! ## Words and names -/

theorem acceptWord?_prefix {w : List Char} (h : c.unread = w ++ rest) :
    ∃ d, c.acceptWord? w = some d ∧ d.unread = rest := by
  induction w generalizing c with
  | nil => exact ⟨c, rfl, h⟩
  | cons x w ih =>
    obtain ⟨read, unread⟩ := c
    simp only [List.cons_append] at h
    subst h
    obtain ⟨d, hd, hr⟩ := ih (c := ⟨x :: read, w ++ rest⟩) rfl
    exact ⟨d, by simpa [acceptWord?, accept?, acceptIf?] using hd, hr⟩

theorem acceptWord?_eq_none {w : List Char} (h : ¬ w <+: c.unread) : c.acceptWord? w = none := by
  cases hd : c.acceptWord? w with
  | none => rfl
  | some d => exact absurd ⟨d.unread, (acceptWord?_moves hd).unread.symm⟩ h

theorem slotName?_eq (c : Cursor) (names : List (String × Slot)) :
    c.slotName? names = (names.find? fun p => !p.1.isEmpty && p.1.toList.isPrefixOf c.unread).bind fun p =>
      (c.acceptWord? p.1.toList).map (p.2, ·) := by
  induction names with
  | nil => rfl
  | cons p names ih =>
    obtain ⟨name, slot⟩ := p
    rw [slotName?, List.find?_cons]
    by_cases he : name.isEmpty
    · simp [he, ih]
    by_cases hp : name.toList <+: c.unread
    · have hb : name.toList.isPrefixOf c.unread = true := List.isPrefixOf_iff_prefix.2 hp
      obtain ⟨rest, hr⟩ := hp
      obtain ⟨d, hd, -⟩ := acceptWord?_prefix hr.symm
      simp [he, hd, hb]
    · have hb : name.toList.isPrefixOf c.unread = false := by rwa [Bool.eq_false_iff, ne_eq, List.isPrefixOf_iff_prefix]
      simp [he, hb, acceptWord?_eq_none hp, ih]

theorem slotName?_eq_none {g : Grammar} (h : g.nameAt? c.unread = none) : c.slotName? g.names = none := by
  rw [slotName?_eq]
  rw [Grammar.nameAt?] at h
  rw [h]
  rfl

theorem slotName?_of_nameAt? {g : Grammar} {name : String} {slot : Slot} (hc : c.unread = name.toList ++ rest)
    (h : g.nameAt? c.unread = some (name, slot)) : ∃ d, c.slotName? g.names = some (slot, d) ∧ d.unread = rest := by
  obtain ⟨d, hd, hr⟩ := acceptWord?_prefix hc
  rw [Grammar.nameAt?] at h
  exact ⟨d, by rw [slotName?_eq, h, Option.bind_some, hd, Option.map_some], hr⟩

theorem nameAt?_of_slotName? {g : Grammar} {slot : Slot} (h : c.slotName? g.names = some (slot, d)) :
    ∃ name, g.nameAt? c.unread = some (name, slot) ∧ c.unread = name.toList ++ d.unread := by
  rw [slotName?_eq] at h
  obtain ⟨⟨name, slot'⟩, hp, hd⟩ := Option.bind_eq_some_iff.1 h
  obtain ⟨e, he, hs⟩ := Option.map_eq_some_iff.1 hd
  simp only [Prod.mk.injEq] at hs
  obtain ⟨rfl, rfl⟩ := hs
  exact ⟨name, hp, (acceptWord?_moves he).unread⟩

theorem nameAt?_of_slotName?_none {g : Grammar} (h : c.slotName? g.names = none) : g.nameAt? c.unread = none := by
  cases hn : g.nameAt? c.unread with
  | none => rfl
  | some p =>
    obtain ⟨name, slot⟩ := p
    obtain ⟨-, -, rest, hr⟩ := Grammar.nameAt?_prefix hn
    obtain ⟨d, hd, -⟩ := slotName?_of_nameAt? hr.symm hn
    rw [hd] at h
    simp at h

/-! ## Constants -/

theorem constant?_eq_none (hc : ∀ x, c.unread.head? = some x → x ≠ 'e' ∧ x ≠ 'p') : c.constant? = none := by
  have he : ∀ (k : Constant) (x : Char), k.word.head? = some x → x = 'e' ∨ x = 'p' := by
    intro k x hx
    cases k with
    | euler => exact .inl (Option.some.inj hx).symm
    | pi => exact .inr (Option.some.inj hx).symm
  cases hk : c.constant? with
  | none => rfl
  | some p =>
    obtain ⟨k, d⟩ := p
    have hu := (constant?_moves hk).unread
    cases hw : k.word with
    | nil => exact absurd hw k.word_ne_nil
    | cons x w =>
      rw [hw] at hu
      have hx := hc x (by rw [hu]; rfl)
      rcases he k x (by rw [hw]; rfl) with rfl | rfl
      · exact absurd rfl hx.1
      · exact absurd rfl hx.2

theorem constant?_word (k : Constant) (hc : c.unread = k.word ++ rest) :
    ∃ d, c.constant? = some (k, d) ∧ d.unread = rest := by
  obtain ⟨d, hd, hr⟩ := acceptWord?_prefix hc
  refine ⟨d, ?_, hr⟩
  cases k with
  | euler => rw [constant?, hd, Option.map_some, Option.some_or]
  | pi =>
    have he : c.acceptWord? Constant.euler.word = none :=
      acceptWord?_eq_none (by rw [hc]; simp [Constant.word])
    rw [constant?, he, hd, Option.map_none, Option.none_or, Option.map_some]

/-! ## Numerals -/

theorem digits_append {w : List Char} (hc : c.unread = w ++ rest) (hw : ∀ x ∈ w, x.isDigit)
    (hr : ∀ x, rest.head? = some x → x.isDigit = false) : c.digits = w ∧ c.skipDigits.unread = rest := by
  have ht : rest.takeWhile Char.isDigit = [] ∧ rest.dropWhile Char.isDigit = rest := by
    cases rest with
    | nil => simp
    | cons x rest => simp [hr x rfl]
  rw [digits, skipDigits, skipWhile, hc, List.takeWhile_append_of_pos hw, List.dropWhile_append_of_pos hw, ht.1, ht.2]
  simp

theorem isDigit_of_mem_digits {x : Char} (hx : x ∈ c.digits) : x.isDigit := List.all_eq_true.1 List.all_takeWhile x hx

theorem digits_head (c : Cursor) : ∀ x, c.skipDigits.unread.head? = some x → x.isDigit = false := by
  intro x hx
  have := List.head?_dropWhile_not Char.isDigit c.unread
  rw [show c.unread.dropWhile Char.isDigit = c.skipDigits.unread from rfl, hx] at this
  exact this

theorem accept?_head {x : Char} (hc : c.unread = x :: rest) : ∃ d, c.accept? x = some d ∧ d.unread = rest := by
  obtain ⟨read, unread⟩ := c
  simp only at hc
  subst hc
  exact ⟨⟨x :: read, rest⟩, by simp [accept?, acceptIf?], rfl⟩

theorem accept?_eq_none {x : Char} (hc : c.unread.head? ≠ some x) : c.accept? x = none := by
  cases hd : c.accept? x with
  | none => rfl
  | some d => exact absurd (by rw [(accept?_moves hd).unread]; rfl) hc

theorem numeral?_longest {n : Numeral} (h : n.Longest c.unread rest) :
    ∃ d, c.numeral? = .ok (some (n, d)) ∧ d.unread = rest := by
  obtain ⟨whole, fraction⟩ := n
  have ht := h.text
  simp only [Numeral.text] at ht
  cases fraction with
  | nil =>
    simp only [List.isEmpty_nil, if_true] at ht
    obtain ⟨hd, hu⟩ := digits_append ht h.whole_digits h.digit
    refine ⟨c.skipDigits, ?_, hu⟩
    rw [numeral?, if_neg (by rw [hd]; exact h.whole_ne_nil), accept?_eq_none (by rw [hu]; exact h.point rfl), hd]
  | cons x fraction =>
    simp only [List.isEmpty_cons, Bool.false_eq_true, if_false, List.append_assoc] at ht
    obtain ⟨hd, hu⟩ := digits_append ht h.whole_digits (by rintro _ ⟨⟩; rfl)
    obtain ⟨point, hp, hpu⟩ := accept?_head hu
    obtain ⟨hf, hr⟩ := digits_append hpu h.fraction_digits h.digit
    refine ⟨point.skipDigits, ?_, hr⟩
    rw [numeral?, if_neg (by rw [hd]; exact h.whole_ne_nil), hp]
    simp [hd, hf]

theorem longest_of_numeral? {n : Numeral} (h : c.numeral? = .ok (some (n, d))) : n.Longest c.unread d.unread := by
  have htext := (numeral?_moves h).1.unread
  unfold numeral? at h
  split at h
  · simp at h
  · next hw =>
    split at h
    · next hp =>
      simp only [Except.ok.injEq, Option.some.injEq, Prod.mk.injEq] at h
      obtain ⟨rfl, rfl⟩ := h
      refine ⟨htext, hw, fun x => isDigit_of_mem_digits, by simp, digits_head c, fun _ hx => ?_⟩
      cases hu : c.skipDigits.unread with
      | nil => simp [hu] at hx
      | cons y unread =>
        rw [hu, List.head?_cons, Option.some.injEq] at hx
        obtain ⟨e, he, -⟩ := accept?_head (hx ▸ hu)
        rw [he] at hp
        simp at hp
    · next point hp =>
      split at h
      · simp at h
      · next hf =>
        simp only [Except.ok.injEq, Option.some.injEq, Prod.mk.injEq] at h
        obtain ⟨rfl, rfl⟩ := h
        exact ⟨htext, hw, fun x => isDigit_of_mem_digits, fun x => isDigit_of_mem_digits,
          digits_head point, fun he => absurd he hf⟩

theorem digits_eq_nil_iff : c.digits = [] ↔ ∀ x, c.unread.head? = some x → x.isDigit = false := by
  cases hu : c.unread with
  | nil => simp [digits, hu]
  | cons x unread => simp [digits, hu, List.takeWhile_cons]

theorem numeral?_eq_none (hc : ∀ x, c.unread.head? = some x → x.isDigit = false) : c.numeral? = .ok none := by
  rw [numeral?, if_pos (digits_eq_nil_iff.2 hc)]

theorem digits_of_numeral?_none (h : c.numeral? = .ok none) : c.digits = [] := by
  unfold numeral? at h
  split at h
  · assumption
  · split at h
    · cases h
    · split at h <;> cases h

theorem error_of_numeral? {e : DanglingPoint} (h : c.numeral? = .error e) :
    (∃ point, c.skipDigits.accept? '.' = some point) ∧ e = ⟨String.ofList (c.digits ++ ['.']), c.pos⟩ := by
  unfold numeral? at h
  split at h
  · cases h
  · split at h
    · cases h
    · next point hp =>
      split at h
      · cases h
        exact ⟨⟨point, hp⟩, rfl⟩
      · cases h

/-- A dangling point is told with the digits before it, as they stand at the cursor. -/
theorem lexeme_of_numeral? {e : DanglingPoint} (h : c.numeral? = .error e) :
    e.pos = c.pos ∧ e.lexeme.toList <+: c.unread := by
  obtain ⟨⟨point, hp⟩, rfl⟩ := error_of_numeral? h
  have hm := (skipDigits_moves c).trans (accept?_moves hp)
  refine ⟨rfl, ?_⟩
  rw [hm.unread, String.toList_ofList]
  exact List.prefix_append _ _

end Cursor

end Formula
