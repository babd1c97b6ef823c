import Formula.Proofs.Grammar.Grouping
import Formula.Proofs.Grammar.Feeding
import Formula.Proofs.Shape

/-!
What the items of a flat level tell about its tree. The operands of an operator stand on its two sides, and how many numbers,
variables and calls they join says where they part; so items of the wrong tree stay wrong with more around them.
-/

namespace Formula

variable {α β : Type}

/-! ## Counting operands -/

def Item.operands : Item α → Nat
  | operand t => t.operands
  | sign | op _ => 0

/-- How many numbers, variables and calls stand in a flat level, those in its parens too. -/
def operandsIn (v : List (Item α)) : Nat := (v.map Item.operands).sum

@[simp] theorem operandsIn_nil : operandsIn ([] : List (Item α)) = 0 := rfl

@[simp] theorem operandsIn_cons (i : Item α) (v : List (Item α)) : operandsIn (i :: v) = i.operands + operandsIn v := by
  simp [operandsIn]

@[simp] theorem operandsIn_append (v w : List (Item α)) : operandsIn (v ++ w) = operandsIn v + operandsIn w := by
  simp [operandsIn]

namespace Groups

variable {k : Grade} {v : List (Item α)} {t : Term α}

theorem operandsIn_eq (h : Groups k v t) : operandsIn v = t.operands := by
  induction h with
  | operand t => simp [Item.operands]
  | chain _ ih => simp [Item.operands, Term.operands, ih]
  | exponent _ _ ihl ihr | factor _ _ _ ihl ihr | summand _ _ _ ihl ihr =>
    simp [Item.operands, Term.operands, ihl, ihr]
  | sign _ ih => simp [Item.operands, Term.operands, ih]
  | power _ ih | signed _ ih | product _ ih | sum _ ih => exact ih

/-- A flat level ends with an operand. -/
theorem getLast?_eq (h : Groups k v t) : ∃ u, v.getLast? = some (.operand u) := by
  induction h with
  | operand t => exact ⟨t, rfl⟩
  | @chain _ _ u => exact ⟨u, by simp⟩
  | exponent _ _ _ ih =>
    obtain ⟨u, hu⟩ := ih
    exact ⟨u, by simp [List.getLast?_cons, hu]⟩
  | factor _ _ _ _ ih | summand _ _ _ _ ih =>
    obtain ⟨u, hu⟩ := ih
    exact ⟨u, by simp [List.getLast?_cons, hu]⟩
  | sign _ ih =>
    obtain ⟨u, hu⟩ := ih
    exact ⟨u, by simp [List.getLast?_cons, hu]⟩
  | power _ ih | signed _ ih | product _ ih | sum _ ih => exact ih

theorem to_sum (h : Groups k v t) : Groups .sum v t := by
  cases k with
  | chain => exact .sum (.product (.signed (.power h)))
  | power => exact .sum (.product (.signed h))
  | signed => exact .sum (.product h)
  | product => exact .sum h
  | sum => exact h

/-- A flat level that goes on behind another one has more operands. -/
theorem operands_lt {k' : Grade} {u : Term α} {o : BinOp} {w : List (Item α)} (h : Groups k v t)
    (h' : Groups k' (v ++ .op o :: w) u) : t.operands < u.operands := by
  obtain ⟨x, hx⟩ := h'.getLast?_eq
  have hw : 0 < operandsIn w := by
    cases w using List.reverseRecOn with
    | nil => simp at hx
    | append_singleton w i =>
      have hi : i = .operand x := by simpa [List.getLast?_cons] using hx
      rw [operandsIn_append, hi]
      have := x.operands_pos
      simp [Item.operands]
      omega
  have hsum := h'.operandsIn_eq
  rw [operandsIn_append, operandsIn_cons, h.operandsIn_eq] at hsum
  omega

/-- The number of operands before an operator says where it stands. -/
theorem eq_of_append {k' : Grade} {v' : List (Item α)} {u : Term α} {o o' : BinOp} {w w' : List (Item α)}
    (h : Groups k v t) (h' : Groups k' v' u) (hn : t.operands = u.operands)
    (he : v ++ .op o :: w = v' ++ .op o' :: w') : v = v' ∧ w = w' := by
  have hv : v = v' := by
    rcases List.append_eq_append_iff.1 he with ⟨z, rfl, hz⟩ | ⟨z, rfl, hz⟩
    · cases z with
      | nil => simp
      | cons i z =>
        obtain ⟨rfl, -⟩ := List.cons.inj hz
        exact absurd hn (h.operands_lt h').ne
    · cases z with
      | nil => simp
      | cons i z =>
        obtain ⟨rfl, -⟩ := List.cons.inj hz
        exact absurd hn (h'.operands_lt h).ne'
  subst hv
  exact ⟨rfl, (List.cons.inj (List.append_cancel_left he)).2⟩

/-! ## Taking apart -/

theorem of_singleton {u : Term α} (h : Groups k [.operand u] t) : t = u := by
  generalize hv : [Item.operand u] = v at h
  induction h with
  | operand t => simpa using hv.symm
  | chain | exponent | factor | summand => simp [List.singleton_eq_append_iff] at hv
  | sign => cases hv
  | power _ ih | signed _ ih | product _ ih | sum _ ih => exact ih hv

/-- A sign takes the whole power behind it, if it is not the first of an operator's left operand. -/
theorem of_sign {w : List (Item α)} (h : Groups k (.sign :: w) t) :
    (∃ u, t = .neg u ∧ Groups .power w u) ∨ ∃ o l r, t = .op o l r := by
  generalize hv : Item.sign :: w = v at h
  induction h with
  | operand t => cases hv
  | chain | exponent | factor | summand => exact .inr ⟨_, _, _, rfl⟩
  | sign h =>
    cases hv
    exact .inl ⟨_, rfl, h⟩
  | power _ ih | signed _ ih | product _ ih | sum _ ih => exact ih hv

/-- Both sides of an operator: grouped no looser than it binds, and the right one tighter, save that a power may have an
operand or a sign there. -/
theorem of_op {o : BinOp} {l r : Term α} (h : Groups k v (.op o l r)) : v = [.operand (.op o l r)] ∨
    ∃ x y i j, v = x ++ .op o :: y ∧ Groups i x l ∧ Groups j y r ∧ o.precedence ≤ i.outer ∧
      (o.precedence < j.outer ∨ y = [.operand r] ∨ o = .pow ∧ ∃ u, r = .neg u) := by
  generalize ht : Term.op o l r = t at h
  induction h with
  | operand t => exact .inl rfl
  | @chain v l' r' h =>
    cases ht
    exact .inr ⟨v, _, .chain, .chain, rfl, h, .operand _, le_rfl, .inr (.inl rfl)⟩
  | @exponent v w l' r' h h' =>
    cases ht
    exact .inr ⟨v, _, .chain, .signed, rfl, h, .sign h', le_rfl, .inr (.inr ⟨rfl, _, rfl⟩)⟩
  | @factor v w l' r' o' ho h h' =>
    cases ht
    refine .inr ⟨v, w, .product, .signed, rfl, h, h', ?_, .inl ?_⟩
    · rcases ho with rfl | rfl <;> decide
    · rcases ho with rfl | rfl <;> decide
  | @summand v w l' r' o' ho h h' =>
    cases ht
    refine .inr ⟨v, w, .sum, .product, rfl, h, h', ?_, .inl ?_⟩
    · rcases ho with rfl | rfl <;> decide
    · rcases ho with rfl | rfl <;> decide
  | sign => cases ht
  | power _ ih | signed _ ih | product _ ih | sum _ ih => exact ih ht

/-- An operator binds no looser than the grade it is grouped at, unless it stands in parens. -/
theorem outer_le (h : Groups k v t) : v = [.operand t] ∨ k.outer ≤ t.precedence := by
  induction h with
  | operand t => exact .inl rfl
  | chain | exponent => exact .inr le_rfl
  | sign => exact .inr le_rfl
  | @factor _ _ _ _ o ho =>
    right
    rcases ho with rfl | rfl <;> exact le_rfl
  | @summand _ _ _ _ o ho =>
    right
    rcases ho with rfl | rfl <;> exact le_rfl
  | power _ ih => exact ih
  | signed _ ih | product _ ih | sum _ ih => exact ih.imp_right (le_trans (by decide))

end Groups

/-! ## Wrong trees -/

/-- The items have the operands of `t`, but none of their trees has its shape. -/
structure Wrong (v : List (Item α)) (t : Term β) : Prop where
  operands : operandsIn v = t.operands
  shape : ∀ k u, Groups k v u → u.shape ≠ t.shape

namespace Wrong

variable {k : Grade} {v w : List (Item α)} {t l r : Term β} {u : Term α}

theorem single {u : Term α} (hn : u.operands = t.operands) (hs : u.shape ≠ t.shape) : Wrong [.operand u] t := by
  refine ⟨?_, fun k u' hu => ?_⟩
  · rw [operandsIn_cons, operandsIn_nil, Nat.add_zero, Item.operands, hn]
  · rwa [hu.of_singleton]

/-- In parens they are one operand, a tree of another shape. -/
theorem enclosed (h : Wrong v t) (hu : Groups k v u) : Wrong [.operand u] t :=
  .single (hu.operandsIn_eq.symm.trans h.operands) (h.shape k u hu)

theorem sign (h : operandsIn w = t.operands) (hw : ∀ u, Groups .power w u → u.shape ≠ t.shape) :
    Wrong (.sign :: w) (.neg t) := by
  refine ⟨?_, fun k u hu hs => ?_⟩
  · rw [operandsIn_cons, h, Item.operands, Nat.zero_add, Term.operands]
  · obtain ⟨u', rfl, hs'⟩ := Term.of_shape_neg hs
    rcases hu.of_sign with ⟨_, ⟨⟩, hu'⟩ | ⟨_, _, _, ⟨⟩⟩
    exact hw _ hu' hs'

/-- What goes wrong with an operator goes wrong with one of its sides. -/
theorem op (hv : Groups k v u) (hl : u.operands = l.operands) (hr : operandsIn w = r.operands) {o : BinOp}
    (h : ∀ i j l' r', Groups i v l' → Groups j w r' → l'.shape = l.shape → r'.shape = r.shape →
      o.precedence ≤ i.outer → ¬ (o.precedence < j.outer ∨ w = [.operand r'] ∨ o = .pow ∧ ∃ x, r' = .neg x)) :
    Wrong (v ++ .op o :: w) (.op o l r) := by
  refine ⟨?_, fun k' u' hu hs => ?_⟩
  · rw [operandsIn_append, operandsIn_cons, hv.operandsIn_eq, hl, hr, Item.operands, Nat.zero_add, Term.operands]
  · obtain ⟨l', r', rfl, hsl, hsr⟩ := Term.of_shape_op hs
    rcases hu.of_op with hone | ⟨x, y, i, j, he, hx, hy, hi, hj⟩
    · simp [List.append_eq_singleton_iff] at hone
    · obtain ⟨rfl, rfl⟩ := hv.eq_of_append hx (hl.trans (Term.operands_eq_of_shape hsl).symm) he
      exact h i j l' r' hx hy hsl hsr hi hj

theorem left (h : Wrong v l) (hv : Groups k v u) (hr : operandsIn w = r.operands) (o : BinOp) :
    Wrong (v ++ .op o :: w) (.op o l r) := by
  refine op hv (hv.operandsIn_eq.symm.trans h.operands) hr ?_
  intro i j l' r' hl' _ hsl
  exact absurd hsl (h.shape i l' hl')

theorem right (h : Wrong w r) (hv : Groups k v u) (hl : u.operands = l.operands) (o : BinOp) :
    Wrong (v ++ .op o :: w) (.op o l r) := by
  refine op hv hl h.operands ?_
  intro i j l' r' _ hr' _ hsr
  exact absurd hsr (h.shape j r' hr')

/-! ### Without parens -/

/-- A sign in front of what binds no tighter takes only the first operand. -/
theorem sign_bare (h : operandsIn w = t.operands) (hw : ∀ x, w ≠ [.operand x]) (ht : t.precedence ≤ signPrecedence) :
    Wrong (.sign :: w) (.neg t) := by
  refine sign h fun u hu hs => ?_
  have hle : 4 ≤ u.precedence := hu.outer_le.resolve_left (hw u)
  rw [Term.precedence_eq_of_shape hs] at hle
  exact absurd (hle.trans ht) (by decide)

/-- An operator behind one that binds looser takes only the last operand. -/
theorem left_bare (hv : Groups k v u) (hl : u.operands = l.operands) (hr : operandsIn w = r.operands)
    (hbare : ∀ x, v ≠ [.operand x]) {o : BinOp} (ht : l.precedence < o.precedence) :
    Wrong (v ++ .op o :: w) (.op o l r) := by
  refine op hv hl hr ?_
  intro i j l' r' hl' _ hsl _ hi
  have hle := hl'.outer_le.resolve_left (hbare l')
  rw [Term.precedence_eq_of_shape hsl] at hle
  exact absurd (hi.trans hle) (not_le.2 ht)

/-- An operator in front of one that binds no tighter takes only the first operand; a power takes a sign with it. -/
theorem right_bare (hv : Groups k v u) (hl : u.operands = l.operands) (hr : operandsIn w = r.operands)
    (hbare : ∀ x, w ≠ [.operand x]) {o : BinOp} (ht : r.precedence ≤ o.precedence)
    (hsign : ¬ (o = .pow ∧ ∃ x, r = .neg x)) : Wrong (v ++ .op o :: w) (.op o l r) := by
  refine op hv hl hr ?_
  rintro i j l' r' _ hr' _ hsr _ (hj | hone | ⟨ho, x, rfl⟩)
  · have hle := hr'.outer_le.resolve_left (hbare r')
    rw [Term.precedence_eq_of_shape hsr] at hle
    exact absurd (hle.trans ht) (not_le.2 hj)
  · exact hbare r' hone
  · obtain ⟨y, rfl, -⟩ := Term.of_shape_neg hsr.symm
    exact hsign ⟨ho, y, rfl⟩

end Wrong

end Formula
