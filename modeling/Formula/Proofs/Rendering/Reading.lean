import Formula.Proofs.Grammar.Feeding
import Formula.Proofs.Rendering.Tight
import Formula.Proofs.Shape

/-!
The grammar reads a printed tree as the same tree: the parens that are printed are those that the grammar needs to group the
operands so.
-/

namespace Formula

variable {α : Type}

namespace Groups

variable {v : List (Item α)} {t : Term α}

theorem of_chain (h : Groups .chain v t) : ∀ k, Groups k v t
  | .chain => h
  | .power => .power h
  | .signed => .signed (.power h)
  | .product => .product (.signed (.power h))
  | .sum => .sum (.product (.signed (.power h)))

theorem of_signed (h : Groups .signed v t) : ∀ {k : Grade}, k.outer ≤ 3 → Groups k v t
  | .signed, _ => h
  | .product, _ => .product h
  | .sum, _ => .sum (.product h)

theorem of_product (h : Groups .product v t) : ∀ {k : Grade}, k.outer ≤ 2 → Groups k v t
  | .product, _ => h
  | .sum, _ => .sum h

theorem of_sum (h : Groups .sum v t) : ∀ {k : Grade}, k.outer ≤ 1 → Groups k v t
  | .sum, _ => h

theorem chain_ne_sign (h : Groups .chain v t) (w : List (Item α)) : v ≠ .sign :: w := by
  generalize hk : Grade.chain = k at h
  induction h generalizing w with
  | operand t => simp
  | @chain v l t _ ih =>
    cases v with
    | nil => simp
    | cons i v =>
      rintro ⟨⟩
      exact ih v hk rfl
  | power | exponent | signed | sign | product | factor | sum | summand => cases hk

end Groups

/-! ## Reading a printed tree -/

variable [Scalar α] {g : Grammar} {n : Names}

/-- The text `p` is read as `t`, with no operator outside parens that binds looser than `p` says. -/
def Piece.Reads (g : Grammar) (p : Piece) (t : Term α) : Prop :=
  ∀ rest, Delimits rest → ∃ v, Derives g false (.expression v) (p.text.toList ++ rest) rest ∧
    (∀ k : Grade, k.outer ≤ p.precedence → Groups k v t) ∧ (v = [.operand t] ↔ 4 < p.precedence)

namespace Piece.Reads

variable {p q : Piece} {t l r : Term α}

theorem atom {text : String} (h : ∀ rest, Delimits rest → Derives g false (.primary t) (text.toList ++ rest) rest) :
    (Piece.atom text).Reads g t := fun rest hr =>
  ⟨_, .single (.plain (h rest hr)), fun k _ => (Groups.operand t).of_chain k, iff_of_true rfl (by decide : 4 < 99)⟩

/-- An operand in parens, or one that needs none around it. -/
theorem enclosed (h : p.Reads g t) (hp : 1 ≤ p.precedence) {b : Bool} {k : Grade}
    (hk : b = false → k.outer ≤ p.precedence) {rest : List Char} (hr : Delimits rest) :
    ∃ v, Derives g false (.expression v) ((p.enclosed b).toList ++ rest) rest ∧ Groups k v t ∧
      ((b = false → 4 < p.precedence) → v = [.operand t]) := by
  cases b with
  | false =>
    obtain ⟨v, hv, ht, ha⟩ := h rest hr
    exact ⟨v, hv, ht k (hk rfl), fun hb => ha.2 (hb rfl)⟩
  | true =>
    obtain ⟨v, hv, ht, -⟩ := h (')' :: rest) (.cons (by simp) rest)
    have hd := Derives.group ⟨0, rfl⟩ (by simp) hv (ht .sum hp) ⟨0, rfl⟩
    refine ⟨_, .single (.plain ?_), (Groups.operand t).of_chain k, fun _ => rfl⟩
    simpa [Piece.enclosed] using hd

theorem neg (h : p.Reads g t) (hp : 1 ≤ p.precedence) (ht : Text.Tight p.text.toList) : p.neg.Reads g (.neg t) := by
  intro rest hr
  obtain ⟨v, hv, hg, -⟩ := h.enclosed hp (b := decide (p.precedence ≤ signPrecedence)) (k := .chain)
    (fun hb => Nat.lt_of_not_le (of_decide_eq_false hb)) hr
  have hs := hv.sign hg.chain_ne_sign ((Piece.tight_enclosed ht _).head_ne_space rest)
  exact ⟨_, by simpa [Piece.neg] using hs, fun k hk => (Groups.sign (.power hg)).of_signed hk,
    iff_of_false (by simp) (show ¬ 4 < signPrecedence by decide)⟩

/-- Two operands around an operator, the left one read at grade `i` and the right one at grade `j`. -/
theorem around (hl : p.Reads g l) (hr : q.Reads g r) (hp : 1 ≤ p.precedence) (hq : 1 ≤ q.precedence) (o : BinOp)
    {i j : Grade} (hi : i.outer ≤ o.precedence) (hj : j.outer ≤ o.precedence + 1) {rest : List Char}
    (h : Delimits rest) :
    ∃ v w, Derives g false (.expression (v ++ .op o :: w)) ((Piece.op o p q).text.toList ++ rest) rest ∧
      Groups i v l ∧ Groups j w r ∧ (o = .pow → w = [.operand r]) := by
  obtain ⟨w, hw, hgw, ha⟩ := hr.enclosed hq (b := decide (q.precedence ≤ o.precedence)) (k := j)
    (fun hb => Nat.le_trans hj (Nat.lt_of_not_le (of_decide_eq_false hb))) h
  obtain ⟨v, hv, hgv, -⟩ := hl.enclosed hp (b := decide (p.precedence < o.precedence)) (k := i)
    (fun hb => Nat.le_trans hi (Nat.le_of_not_lt (of_decide_eq_false hb)))
    (.cons (x := ' ') (by simp) (o.symbol :: ' ' :: ((q.enclosed (q.precedence ≤ o.precedence)).toList ++ rest)))
  refine ⟨v, w, ?_, hgv, hgw, ?_⟩
  · simpa [Piece.op] using hv.append ⟨1, rfl⟩ hw.spaced
  · rintro rfl
    exact ha fun hb => Nat.lt_of_not_le (of_decide_eq_false hb)

theorem op (hl : p.Reads g l) (hr : q.Reads g r) (hp : 1 ≤ p.precedence) (hq : 1 ≤ q.precedence) (o : BinOp) :
    (Piece.op o p q).Reads g (.op o l r) := by
  intro rest h
  have hlow : ∀ v w : List (Item α), v ++ .op o :: w = [.operand (.op o l r)] ↔ 4 < (Piece.op o p q).precedence :=
    fun _ _ => iff_of_false (by simp [List.append_eq_singleton_iff]) (by cases o <;> simp [Piece.op, BinOp.precedence])
  have hcases : (o = .add ∨ o = .sub) ∨ (o = .mul ∨ o = .div) ∨ o = .pow := by cases o <;> simp
  rcases hcases with ho | ho | rfl
  · have h1 : o.precedence = 1 := by rcases ho with rfl | rfl <;> rfl
    obtain ⟨v, w, hd, hv, hw, -⟩ :=
      hl.around hr hp hq o (i := .sum) (j := .product) (by rw [h1]; decide) (by rw [h1]; decide) h
    exact ⟨_, hd, fun k hk => (Groups.summand ho hv hw).of_sum (h1 ▸ hk), hlow _ _⟩
  · have h2 : o.precedence = 2 := by rcases ho with rfl | rfl <;> rfl
    obtain ⟨v, w, hd, hv, hw, -⟩ :=
      hl.around hr hp hq o (i := .product) (j := .signed) (by rw [h2]; decide) (by rw [h2]; decide) h
    exact ⟨_, hd, fun k hk => (Groups.factor ho hv hw).of_product (h2 ▸ hk), hlow _ _⟩
  · obtain ⟨v, w, hd, hv, -, hw⟩ := hl.around hr hp hq .pow (i := .chain) (j := .chain) (by decide) (by decide) h
    rw [hw rfl] at hd
    exact ⟨_, hd, fun k _ => (Groups.chain hv).of_chain k, hlow _ _⟩

end Piece.Reads

theorem Piece.precedence_pos (n : Names) (t : Term α) : 1 ≤ (t.piece n).precedence := by
  cases t with
  | number v =>
    simp only [Term.piece, Piece.number]
    split <;> decide
  | var | call | log | neg => exact Nat.le_of_ble_eq_true rfl
  | op o l r => cases o <;> exact Nat.le_of_ble_eq_true rfl

/-- A number that is printed as a numeral. -/
def Printable (v : α) : Prop := Scalar.ReadsBack v ∧ Scalar.isNegative v = false

theorem Scalar.ReadsAs.reads {v w : α} (h : Scalar.ReadsAs v w) (hs : Scalar.isNegative v = false) (hg : g.Calls n) :
    (Piece.number v).Reads g (.number w) := by
  obtain ⟨m, ⟨hne, hd⟩, ht, hv⟩ := h
  have hp : Piece.number v = .atom (String.ofList m.text) := by simp [Piece.number, Piece.atom, ht, hs]
  rw [hp, ← hv]
  refine .atom fun rest hr => ?_
  rw [String.toList_ofList]
  exact .leaf ⟨0, rfl⟩ (by simp) (hg.numeral hne hd hr)

/-- A tree is read with the numbers that its numerals denote. -/
theorem Legible.reads_map {t : Term α} (h : Legible g t) (hg : g.Calls n) (f : α → α)
    (hl : ∀ v ∈ t.literals, Scalar.ReadsAs v (f v) ∧ Scalar.isNegative v = false) : (t.piece n).Reads g (t.map f) := by
  have hpos := Piece.precedence_pos (α := α) n
  induction h with
  | leaf h =>
    cases h with
    | @name name slot _ hn =>
      rw [Term.piece, ← hg.eq_of (Grammar.nameAt?_prefix hn).1]
      exact .atom fun rest hr => .leaf ⟨0, rfl⟩ (by simp) (.name (hg.nameAt?_some hn hr.not_isPlain))
    | euler | pi | numeral =>
      obtain ⟨hv, hs⟩ := hl _ List.mem_cons_self
      exact hv.reads hs hg
  | @call f' t _ hn _ ih =>
    refine .atom fun rest hr => ?_
    obtain ⟨v, hv, ht, -⟩ := ih hl (')' :: rest) (.cons (by simp) rest)
    simpa [Term.map] using Derives.call ⟨0, rfl⟩ (hg.nameAt?_call hn _) hv (ht .sum (hpos t)) ⟨0, rfl⟩
  | @log t u _ hn _ _ iht ihu =>
    simp only [Term.literals, List.mem_append] at hl
    refine .atom fun rest hr => ?_
    obtain ⟨w, hw, hu, -⟩ := ihu (fun v hv => hl v (.inr hv)) (')' :: rest) (.cons (by simp) rest)
    obtain ⟨v, hv, ht, -⟩ := iht (fun v hv => hl v (.inl hv))
      (',' :: ' ' :: ((u.piece n).text.toList ++ ')' :: rest)) (.cons (by simp) _)
    simpa [Term.map] using Derives.log ⟨0, rfl⟩ (hg.nameAt?_call hn _) hv (ht .sum (hpos t)) ⟨0, rfl⟩ hw.spaced
      (hu .sum (hpos u)) ⟨0, rfl⟩
  | neg ht ih => exact (ih hl).neg (hpos _) (ht.tight hg fun v hv => ⟨f v, (hl v hv).1⟩)
  | op _ _ ihl ihr =>
    simp only [Term.literals, List.mem_append] at hl
    exact (ihl fun v hv => hl v (.inl hv)).op (ihr fun v hv => hl v (.inr hv)) (hpos _) (hpos _) _

theorem Legible.reads {t : Term α} (h : Legible g t) (hg : g.Calls n) (hl : ∀ v ∈ t.literals, Printable v) :
    (t.piece n).Reads g t := by
  have hread := h.reads_map hg id hl
  rwa [t.map_id] at hread

end Formula
