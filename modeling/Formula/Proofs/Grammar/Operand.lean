import Formula.Proofs.Grammar.Leaf

/-!
The operand at a cursor, case by case: an operand of one token, the word of a function, or none.
-/

namespace Formula

variable {α : Type}

theorem Func.eq_of_name_prefix {f g : Func} (h : f.name.toList <+: g.name.toList) : f = g := by
  have : ∀ f ∈ all, ∀ g ∈ all, f.name.toList <+: g.name.toList → f = g := by decide
  exact this f f.mem_all g g.mem_all h

theorem Func.not_prefix_log (f : Func) : ¬ f.name.toList <+: "log".toList ∧ ¬ "log".toList <+: f.name.toList := by
  have : ∀ f ∈ all, ¬ f.name.toList <+: "log".toList ∧ ¬ "log".toList <+: f.name.toList := by decide
  exact this f f.mem_all

/-- The calls whose word may stand in a text. -/
def Call.Starts (call : Call α) : Prop := call = .logBase ∨ ∃ f, call = .unary f

/-- An operand begins here, whatever becomes of it: a name, a constant, a digit or the word of a call. -/
inductive Grammar.Begins (g : Grammar) (here : List Char) : Prop
  | name {p : String × Slot} : g.nameAt? here = some p → Begins g here
  | constant (k : Constant) : k.word <+: here → Begins g here
  | digit {x : Char} : here.head? = some x → x.isDigit → Begins g here
  | word {w : String} : w ∈ "log" :: Func.all.map Func.name → w.toList <+: here → Begins g here

namespace Call

variable {call call' : Call α}

theorem eq_of_name_prefix (h : call.Starts) (h' : call'.Starts) (hp : call.name.toList <+: call'.name.toList) :
    call = call' := by
  rcases h with rfl | ⟨f, rfl⟩ <;> rcases h' with rfl | ⟨g, rfl⟩
  · rfl
  · exact absurd hp g.not_prefix_log.2
  · exact absurd hp f.not_prefix_log.1
  · rw [Func.eq_of_name_prefix hp]

theorem head_name (h : call.Starts) {x : Char} (hx : call.name.toList.head? = some x) :
    (x ≠ 'e' ∧ x ≠ 'p') ∧ x.isDigit = false ∧ x ∉ [' ', '-', '('] := by
  have hall : ∀ w ∈ "log" :: Func.all.map Func.name, w.toList.head?.all fun x =>
      decide ((x ≠ 'e' ∧ x ≠ 'p') ∧ x.isDigit = false ∧ x ∉ [' ', '-', '(']) := by decide
  have hw : call.name ∈ "log" :: Func.all.map Func.name := by
    rcases h with rfl | ⟨f, rfl⟩
    · exact List.mem_cons_self
    · exact List.mem_cons_of_mem _ (List.mem_map.2 ⟨f, f.mem_all, rfl⟩)
  have := hall call.name hw
  rw [hx] at this
  exact of_decide_eq_true this

theorem exists_starts {w : String} (h : w ∈ "log" :: Func.all.map Func.name) :
    ∃ call : Call α, call.Starts ∧ call.name = w := by
  rcases List.mem_cons.1 h with rfl | h
  · exact ⟨.logBase, .inl rfl, rfl⟩
  · obtain ⟨f, -, rfl⟩ := List.mem_map.1 h
    exact ⟨.unary f, .inr ⟨f, rfl⟩, rfl⟩

end Call

theorem Numeral.Longest.head {n : Numeral} {here rest : List Char} (h : n.Longest here rest) :
    ∃ x, here.head? = some x ∧ x.isDigit := by
  obtain ⟨whole, fraction⟩ := n
  cases whole with
  | nil => exact absurd rfl h.whole_ne_nil
  | cons x whole =>
    refine ⟨x, ?_, h.whole_digits x List.mem_cons_self⟩
    rw [h.text, Numeral.text]
    split <;> rfl

namespace Cursor

variable {c d : Cursor} {rest : List Char} {call : Call α}

theorem starts_of_callWord? (h : c.callWord? = some (call, d)) : call.Starts := by
  obtain ⟨call', hm, hc⟩ := List.exists_of_findSome?_eq_some h
  obtain ⟨e, -, hd⟩ := Option.map_eq_some_iff.1 hc
  simp only [Prod.mk.injEq] at hd
  obtain ⟨rfl, -⟩ := hd
  rcases List.mem_append.1 hm with hm | hm
  · obtain ⟨f, -, rfl⟩ := List.mem_map.1 hm
    exact .inr ⟨f, rfl⟩
  · exact .inl (List.mem_singleton.1 hm)

theorem callWord?_word (hs : call.Starts) (hc : c.unread = call.name.toList ++ rest) :
    ∃ d, c.callWord? = some (call, d) ∧ d.unread = rest := by
  obtain ⟨d, hd, hr⟩ := acceptWord?_prefix hc
  cases hw : (c.callWord? : Option (Call α × Cursor)) with
  | none =>
    have hm : call ∈ Func.all.map Call.unary ++ [Call.logBase] := by
      rcases hs with rfl | ⟨f, rfl⟩
      · simp
      · simp [f.mem_all]
    have hn := List.findSome?_eq_none_iff.1 hw call hm
    rw [hd] at hn
    simp at hn
  | some p =>
    obtain ⟨call', e⟩ := p
    have hm := callWord?_moves hw
    have hp : call.name.toList <+: c.unread := ⟨rest, hc.symm⟩
    have hp' : call'.name.toList <+: c.unread := ⟨e.unread, hm.unread.symm⟩
    have he : call = call' := by
      rcases List.prefix_or_prefix_of_prefix hp hp' with h | h
      · exact Call.eq_of_name_prefix hs (starts_of_callWord? hw) h
      · exact (Call.eq_of_name_prefix (starts_of_callWord? hw) hs h).symm
    subst he
    exact ⟨e, rfl, List.append_cancel_left (hm.unread.symm.trans hc)⟩

variable [Scalar α] {g : Grammar}

/-! ## From the grammar -/

theorem operand?_leaf {here : List Char} {t : Term α} (h : Leaf g here t rest) (hc : c.unread = here) :
    ∃ tok d, c.operand? g = .ok (some (.leaf tok, d)) ∧ t.postorder = [tok] ∧ d.unread = rest := by
  subst hc
  generalize hu : c.unread = here at h
  cases h with
  | @name name slot _ hn =>
    obtain ⟨d, hd, hr⟩ := slotName?_of_nameAt? hu (hu ▸ hn)
    exact ⟨.var slot, d, by rw [operand?, hd], rfl, hr⟩
  | euler hn =>
    obtain ⟨d, hd, hr⟩ := constant?_word .euler hu
    exact ⟨_, d, by rw [operand?, slotName?_eq_none (hu ▸ hn), hd]; rfl, rfl, hr⟩
  | pi hn =>
    obtain ⟨d, hd, hr⟩ := constant?_word .pi hu
    exact ⟨_, d, by rw [operand?, slotName?_eq_none (hu ▸ hn), hd]; rfl, rfl, hr⟩
  | @numeral n _ _ hn hl =>
    obtain ⟨d, hd, hr⟩ := numeral?_longest (hu ▸ hl)
    have hk : c.constant? = none := by
      obtain ⟨x, hx, hd⟩ := hl.head
      refine constant?_eq_none fun y hy => ?_
      rw [hu, hx, Option.some.injEq] at hy
      subst hy
      constructor <;> rintro rfl <;> simp at hd
    exact ⟨_, d, by rw [operand?, slotName?_eq_none (hu ▸ hn), hk, hd], rfl, hr⟩

theorem operand?_word (hs : call.Starts) (hc : c.unread = call.name.toList ++ rest) (hn : g.nameAt? c.unread = none) :
    ∃ d, c.operand? g = .ok (some (.word call, d)) ∧ d.unread = rest := by
  obtain ⟨d, hd, hr⟩ := callWord?_word hs hc
  have hx : ∀ x, c.unread.head? = some x → call.name.toList.head? = some x := by
    intro x hx
    rw [hc] at hx
    cases hw : call.name.toList with
    | nil => exact absurd hw call.name_ne_nil
    | cons y w => rwa [hw] at hx
  have hk : c.constant? = none := constant?_eq_none fun x h => (Call.head_name hs (hx x h)).1
  have hm : c.numeral? = .ok none := numeral?_eq_none fun x h => (Call.head_name hs (hx x h)).2.1
  exact ⟨d, by rw [operand?, slotName?_eq_none hn, hk, hm, hd]; rfl, hr⟩

theorem operand?_eq_none {x : Char} (hc : c.unread = x :: rest) (hx : x = '-' ∨ x = '(')
    (hn : g.nameAt? c.unread = none) : c.operand? (α := α) g = .ok none := by
  have hh : ∀ y, c.unread.head? = some y → x = y := fun y hy => by rwa [hc, List.head?_cons, Option.some.injEq] at hy
  have hk : c.constant? = none := constant?_eq_none fun y hy => by
    rw [← hh y hy]
    rcases hx with rfl | rfl <;> decide
  have hm : c.numeral? = .ok none := numeral?_eq_none fun y hy => by
    rw [← hh y hy]
    rcases hx with rfl | rfl <;> decide
  have hw : (c.callWord? : Option (Call α × Cursor)) = none := by
    cases hw : (c.callWord? : Option (Call α × Cursor)) with
    | none => rfl
    | some p =>
      obtain ⟨call, d⟩ := p
      have hu := (callWord?_moves hw).unread
      cases hn : call.name.toList with
      | nil => exact absurd hn call.name_ne_nil
      | cons y w =>
        have hy := Call.head_name (starts_of_callWord? hw) (x := y) (by rw [hn]; rfl)
        rw [hn] at hu
        rw [← hh y (by rw [hu]; rfl)] at hy
        rcases hx with rfl | rfl <;> simp at hy
  rw [operand?, slotName?_eq_none hn, hk, hm, hw]
  rfl

/-! ## To the grammar -/

theorem leaf_of_operand? {tok : Token α} (h : c.operand? g = .ok (some (.leaf tok, d))) :
    ∃ t, Leaf g c.unread t d.unread ∧ t.postorder = [tok] := by
  unfold operand? at h
  split at h
  · next hv =>
    simp only [Except.ok.injEq, Option.some.injEq, Prod.mk.injEq, Operand.leaf.injEq] at h
    obtain ⟨rfl, rfl⟩ := h
    obtain ⟨name, hn, hu⟩ := nameAt?_of_slotName? hv
    rw [hu] at hn ⊢
    exact ⟨.var _, .name hn, rfl⟩
  · next hv =>
    have hn := nameAt?_of_slotName?_none hv
    split at h
    · next k _ hk =>
      simp only [Except.ok.injEq, Option.some.injEq, Prod.mk.injEq, Operand.leaf.injEq] at h
      obtain ⟨rfl, rfl⟩ := h
      have hu := (constant?_moves hk).unread
      rw [hu] at hn ⊢
      cases k with
      | euler => exact ⟨.number Scalar.euler, .euler hn, rfl⟩
      | pi => exact ⟨.number Scalar.pi, .pi hn, rfl⟩
    · split at h
      · simp at h
      · next n _ hm =>
        simp only [Except.ok.injEq, Option.some.injEq, Prod.mk.injEq, Operand.leaf.injEq] at h
        obtain ⟨rfl, rfl⟩ := h
        exact ⟨.number n.value, .numeral hn (longest_of_numeral? hm), rfl⟩
      · simp at h

theorem word_of_operand? (h : c.operand? g = .ok (some (.word call, d))) :
    call.Starts ∧ c.unread = call.name.toList ++ d.unread ∧ g.nameAt? c.unread = none := by
  unfold operand? at h
  split at h
  · simp at h
  · next hv =>
    split at h
    · simp at h
    · split at h
      · simp at h
      · simp at h
      · simp only [Except.ok.injEq, Option.map_eq_some_iff, Prod.mk.injEq, Operand.word.injEq] at h
        obtain ⟨⟨call', e⟩, hw, rfl, rfl⟩ := h
        exact ⟨starts_of_callWord? hw, (callWord?_moves hw).unread, nameAt?_of_slotName?_none hv⟩

theorem none_of_operand? (h : c.operand? (α := α) g = .ok none) : c.slotName? g.names = none ∧ c.constant? = none ∧
    c.numeral? = .ok none ∧ (c.callWord? : Option (Call α × Cursor)) = none := by
  unfold operand? at h
  split at h
  · cases h
  · next hv =>
    split at h
    · cases h
    · next hk =>
      split at h
      · cases h
      · cases h
      · next hm => exact ⟨hv, hk, hm, by simpa using h⟩

theorem nameAt?_of_operand?_none (h : c.operand? (α := α) g = .ok none) : g.nameAt? c.unread = none :=
  nameAt?_of_slotName?_none (none_of_operand? h).1

theorem malformed_of_operand? {e : ParseError} (h : c.operand? (α := α) g = .error e) :
    ∃ n : DanglingPoint, e = .malformedNumber n ∧ n.pos = c.pos ∧ n.lexeme.toList <+: c.unread := by
  unfold operand? at h
  split at h
  · cases h
  · split at h
    · cases h
    · split at h
      · next n hn =>
        cases h
        exact ⟨n, rfl, lexeme_of_numeral? hn⟩
      · cases h
      · cases h

/-- Where no operand is found, none begins. -/
theorem not_begins_of_operand? (h : c.operand? (α := α) g = .ok none) : ¬ g.Begins c.unread := by
  obtain ⟨hv, hk, hm, hw⟩ := none_of_operand? h
  intro hb
  cases hb with
  | name hn =>
    rw [nameAt?_of_slotName?_none hv] at hn
    cases hn
  | constant k hp =>
    obtain ⟨rest, hr⟩ := hp
    obtain ⟨d, hd, -⟩ := constant?_word k hr.symm
    rw [hd] at hk
    cases hk
  | digit hx hd =>
    have hn := digits_of_numeral?_none hm
    obtain ⟨rest, hr⟩ := List.head?_eq_some_iff.1 hx
    simp [digits, hr, hd] at hn
  | word hm hp =>
    obtain ⟨rest, hr⟩ := hp
    obtain ⟨call, hs, rfl⟩ := Call.exists_starts (α := α) hm
    obtain ⟨d, hd, -⟩ := callWord?_word hs hr.symm
    rw [hd] at hw
    cases hw

end Cursor

end Formula
