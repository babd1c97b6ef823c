import Formula.Proofs.Grammar.Derivation

/-!
Every flat level has a tree: it is built from left to right, one operator and one operand at a time.
-/

namespace Formula

variable {α : Type}

/-- An operand with or without a sign. -/
def IsUnit (w : List (Item α)) : Prop := ∃ u, w = [.operand u] ∨ w = [.sign, .operand u]

namespace Groups

variable {v w : List (Item α)} {t : Term α}

theorem of_unit (hw : IsUnit w) : ∃ u, Groups .signed w u := by
  obtain ⟨u, rfl | rfl⟩ := hw
  · exact ⟨u, .signed (.power (.operand u))⟩
  · exact ⟨.neg u, .sign (.power (.operand u))⟩

theorem chain_pow (h : Groups .chain v t) (hw : IsUnit w) : ∃ u, Groups .power (v ++ .op .pow :: w) u := by
  obtain ⟨u, rfl | rfl⟩ := hw
  · exact ⟨_, .power (.chain h)⟩
  · exact ⟨_, .exponent h (.power (.operand u))⟩

-- A further power goes to the last operand that no looser operator separates from it, so behind a sign it goes below.
theorem power_pow (h : Groups .power v t) (hw : IsUnit w) : ∃ u, Groups .power (v ++ .op .pow :: w) u := by
  generalize hg : Grade.power = k at h
  induction h with
  | power h => exact h.chain_pow hw
  | exponent hl _ _ ihr =>
    obtain ⟨u, hu⟩ := ihr rfl
    exact ⟨_, by simpa using Groups.exponent hl hu⟩
  | operand | chain | signed | sign | product | factor | sum | summand => simp at hg

theorem signed_pow (h : Groups .signed v t) (hw : IsUnit w) : ∃ u, Groups .signed (v ++ .op .pow :: w) u := by
  cases h with
  | signed h =>
    obtain ⟨u, hu⟩ := h.power_pow hw
    exact ⟨u, .signed hu⟩
  | sign h =>
    obtain ⟨u, hu⟩ := h.power_pow hw
    exact ⟨.neg u, .sign hu⟩

theorem product_op (h : Groups .product v t) (hw : IsUnit w) {o : BinOp} (ho : o ≠ .add ∧ o ≠ .sub) :
    ∃ u, Groups .product (v ++ .op o :: w) u := by
  by_cases hp : o = .pow
  · subst hp
    cases h with
    | product h =>
      obtain ⟨u, hu⟩ := h.signed_pow hw
      exact ⟨u, .product hu⟩
    | factor hf hl hr =>
      obtain ⟨u, hu⟩ := hr.signed_pow hw
      exact ⟨_, by simpa using Groups.factor hf hl hu⟩
  · obtain ⟨u, hu⟩ := of_unit hw
    exact ⟨_, .factor (by cases o <;> simp_all) h hu⟩

theorem sum_op (h : Groups .sum v t) (hw : IsUnit w) (o : BinOp) : ∃ u, Groups .sum (v ++ .op o :: w) u := by
  by_cases ho : o = .add ∨ o = .sub
  · obtain ⟨u, hu⟩ := of_unit hw
    exact ⟨_, .summand ho h (.product hu)⟩
  · rw [not_or] at ho
    cases h with
    | sum h =>
      obtain ⟨u, hu⟩ := h.product_op hw ho
      exact ⟨u, .sum hu⟩
    | summand hs hl hr =>
      obtain ⟨u, hu⟩ := hr.product_op hw ho
      exact ⟨_, by simpa using Groups.summand hs hl hu⟩

end Groups

theorem Derives.groups [Scalar α] {g : Grammar} {ordered : Bool} {p : Phrase α} {a b : List Char}
    (h : Derives g ordered p a b) : match p with
      | .primary _ => True
      | .unit w => IsUnit w
      | .expression v => ∃ t, Groups .sum v t := by
  induction h with
  | leaf | call | log | group => trivial
  | plain => exact ⟨_, .inl rfl⟩
  | minus => exact ⟨_, .inr rfl⟩
  | single _ ih =>
    obtain ⟨u, hu⟩ := Groups.of_unit ih
    exact ⟨u, .sum (.product hu)⟩
  | more _ _ _ ihl ihr =>
    obtain ⟨t, ht⟩ := ihl
    exact ht.sum_op ihr _

end Formula
