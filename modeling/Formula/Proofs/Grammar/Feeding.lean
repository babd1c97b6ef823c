import Formula.Grammar.Machine
import Formula.Proofs.Grammar.Derivation

/-!
The operator stack finds the tree of a flat level. A level that was fed the items of a tree holds the operators on the
tree's right edge, and letting these out completes the tree's postorder.
-/

namespace Formula

variable {α : Type}

namespace Level

def take (l : Level α) : Item α → Level α
  | .operand t => { l with output := t.postorder.reverse ++ l.output }
  | .sign => l.minus
  | .op o => l.operator o

def feed (l : Level α) (v : List (Item α)) : Level α := v.foldl take l

theorem feed_append (l : Level α) (v w : List (Item α)) : l.feed (v ++ w) = (l.feed v).feed w := List.foldl_append

theorem feed_op (l : Level α) (v w : List (Item α)) (o : BinOp) :
    l.feed (v ++ .op o :: w) = ((l.feed v).operator o).feed w := feed_append l v _

theorem emit_append (out : List (Token α)) (ps qs : List Pending) : emit out (ps ++ qs) = emit (emit out ps) qs := by
  simp [emit]

/-- From `l` to `l'` the items of `t` were fed: the new entries, none of them looser than `bound`, complete its
postorder. -/
def Holds (l l' : Level α) (bound : Nat) (t : Term α) : Prop :=
  ∃ ps, l'.pending = ps ++ l.pending ∧ (∀ p ∈ ps, bound ≤ p.precedence) ∧
    emit l'.output ps = t.postorder.reverse ++ l.output ∧ l'.opened = l.opened

/-- What stands on top of the pending entries binds looser than `bound`. -/
def Below (l : Level α) (bound : Nat) : Prop := ∀ p, l.pending.head? = some p → p.precedence < bound

theorem Below.mono {l : Level α} {b b' : Nat} (h : l.Below b) (hb : b ≤ b') : l.Below b' :=
  fun p hp => Nat.lt_of_lt_of_le (h p hp) hb

/-- The level behind the operator `o` with left operand `t`. -/
def behind (l : Level α) (t : Term α) (o : BinOp) : Level α :=
  ⟨t.postorder.reverse ++ l.output, .op o :: l.pending, l.opened⟩

theorem below_behind (l : Level α) (t : Term α) {o : BinOp} {b : Nat} (hb : o.precedence < b) :
    (l.behind t o).Below b := by
  intro p hp
  rw [← Option.some.inj hp]
  exact hb

theorem below_minus (l : Level α) {b : Nat} (hb : signPrecedence < b) : l.minus.Below b := by
  intro p hp
  rw [← Option.some.inj hp]
  exact hb

theorem takeWhile_dropWhile_append {β : Type} {q : β → Bool} {xs ys : List β} (hx : ∀ x ∈ xs, q x)
    (hy : ∀ y, ys.head? = some y → q y = false) :
    (xs ++ ys).takeWhile q = xs ∧ (xs ++ ys).dropWhile q = ys := by
  rw [List.takeWhile_append_of_pos hx, List.dropWhile_append_of_pos hx]
  cases ys with
  | nil => simp
  | cons y ys => simp [hy y rfl]

namespace Holds

variable {l l' : Level α} {t c r : Term α} {b b' : Nat}

theorem mono (h : Holds l l' b t) (hb : b' ≤ b) : Holds l l' b' t := by
  obtain ⟨ps, hp, hps, ho, hn⟩ := h
  exact ⟨ps, hp, fun p hm => Nat.le_trans hb (hps p hm), ho, hn⟩

theorem operand (l : Level α) (t : Term α) (b : Nat) : Holds l (l.feed [.operand t]) b t := ⟨[], rfl, by simp, rfl, rfl⟩

theorem operator (h : Holds l l' b t) {o : BinOp} (ho : o.precedence ≤ b) (hl : l.Below o.precedence) :
    l'.operator o = l.behind t o := by
  obtain ⟨ps, hp, hps, he, hn⟩ := h
  have hx : ∀ p ∈ ps, decide (o.precedence ≤ p.precedence) = true := fun p hm => by
    have := hps p hm
    exact decide_eq_true (by omega)
  have hy : ∀ p, l.pending.head? = some p → decide (o.precedence ≤ p.precedence) = false := fun p hm => by
    have := hl p hm
    exact decide_eq_false (by omega)
  obtain ⟨ht, hd⟩ := takeWhile_dropWhile_append hx hy
  simp only [Level.operator, behind, hp, ht, hd, he, hn]

theorem binary {o : BinOp} (h : Holds (l.behind t o) l' b r) (hb : b' ≤ b) (ho : b' ≤ o.precedence) :
    Holds l l' b' (.op o t r) := by
  obtain ⟨ps, hp, hps, he, hn⟩ := h
  refine ⟨ps ++ [.op o], by simp [hp, behind], ?_, ?_, hn⟩
  · intro p hm
    rcases List.mem_append.1 hm with hm | hm
    · exact Nat.le_trans hb (hps p hm)
    · rw [List.mem_singleton.1 hm]
      exact ho
  · rw [emit_append, he]
    simp [emit, Pending.token?, behind, Term.postorder]

theorem negated (h : Holds l.minus l' b c) (hb : b' ≤ b) (ho : b' ≤ signPrecedence) : Holds l l' b' (.neg c) := by
  obtain ⟨ps, hp, hps, he, hn⟩ := h
  refine ⟨ps ++ [.neg], by simp [hp, minus], ?_, ?_, hn⟩
  · intro p hm
    rcases List.mem_append.1 hm with hm | hm
    · exact Nat.le_trans hb (hps p hm)
    · rw [List.mem_singleton.1 hm]
      exact ho
  · rw [emit_append, he]
    simp [emit, Pending.token?, minus, Term.postorder]

end Holds

end Level

/-- What a level of this grade may stand behind binds looser than `outer`, and what it leaves pending at least as tight
as `inner`. -/
def Grade.outer : Grade → Nat
  | chain | power => 4
  | signed => 3
  | product => 2
  | sum => 1

def Grade.inner : Grade → Nat
  | chain => 4
  | power | signed => 3
  | product => 2
  | sum => 1

-- By the grammar: before an operator the left operand's entries are all let out, as none of them binds looser, and those
-- below stay, as all of them do.
theorem Groups.feed {k : Grade} {v : List (Item α)} {t : Term α} (h : Groups k v t) (l : Level α)
    (hl : l.Below k.outer) : l.Holds (l.feed v) k.inner t := by
  induction h generalizing l with
  | operand t => exact .operand l t _
  | chain _ ih =>
    rw [Level.feed_op, (ih l hl).operator (o := .pow) (by decide) hl]
    exact (Level.Holds.operand _ _ 4).binary (by decide) (by decide)
  | power _ ih => exact (ih l hl).mono (by decide)
  | @exponent v w t r _ _ ihl ihr =>
    rw [Level.feed_op, (ihl l hl).operator (o := .pow) (by decide) hl]
    have hr := ihr (l.behind t .pow).minus (Level.below_minus _ (by decide))
    have hn : Level.Holds (l.behind t .pow) _ 3 (.neg r) := hr.negated (by decide) (by decide)
    exact hn.binary (by decide) (by decide)
  | signed _ ih => exact ih l (hl.mono (by decide))
  | sign _ ih => exact (ih l.minus (Level.below_minus l (by decide))).negated (by decide) (by decide)
  | product _ ih => exact (ih l (hl.mono (by decide))).mono (by decide)
  | @factor v w t r o ho _ _ ihl ihr =>
    have hp : o.precedence = 2 := by rcases ho with rfl | rfl <;> rfl
    rw [Level.feed_op, (ihl l hl).operator (by rw [hp]; decide) (by rw [hp]; exact hl)]
    have hr := ihr (l.behind t o) (Level.below_behind l t (by rw [hp]; decide))
    exact hr.binary (by decide) (by rw [hp]; decide)
  | sum _ ih => exact (ih l (hl.mono (by decide))).mono (by decide)
  | @summand v w t r o ho _ _ ihl ihr =>
    have hp : o.precedence = 1 := by rcases ho with rfl | rfl <;> rfl
    rw [Level.feed_op, (ihl l hl).operator (by rw [hp]; decide) (by rw [hp]; exact hl)]
    have hr := ihr (l.behind t o) (Level.below_behind l t (by rw [hp]; decide))
    exact hr.binary (by decide) (by rw [hp]; decide)

namespace Level

theorem precedence_pos {p : Pending} (h : 1 ≤ p.precedence) : p ≠ .paren := by
  rintro rfl
  simp [Pending.precedence] at h

/-- A level fed nothing but the items of a tree ends as the tree's postorder. -/
theorem finish_feed {v : List (Item α)} {t : Term α} (h : Groups .sum v t) : (feed {} v).finish = t.postorder := by
  obtain ⟨ps, hp, -, he, -⟩ := h.feed {} (fun p hp => by simp at hp)
  rw [finish, hp, List.append_nil, he]
  simp

/-- A group counts as one operand once its paren is closed. -/
theorem closeParen_feed {v : List (Item α)} {t : Term α} (h : Groups .sum v t) (l : Level α) :
    (l.openParen.feed v).closeParen = l.feed [.operand t] := by
  have hb : l.openParen.Below 1 := by
    intro p hp
    rw [← Option.some.inj hp]
    decide
  obtain ⟨ps, hp, hps, he, hn⟩ := h.feed l.openParen hb
  have hx : ∀ p ∈ ps, (p != .paren) = true := fun p hm => by simpa using precedence_pos (hps p hm)
  have hy : ∀ p, l.openParen.pending.head? = some p → (p != .paren) = false := fun p hp => by
    rw [← Option.some.inj hp]
    rfl
  obtain ⟨ht, hd⟩ := takeWhile_dropWhile_append hx hy
  simp only [closeParen, hp, ht, hd, he, hn]
  simp [openParen, feed, take]

theorem opened_feed (l : Level α) (v : List (Item α)) : (l.feed v).opened = l.opened := by
  induction v generalizing l with
  | nil => rfl
  | cons i v ih =>
    rw [feed, List.foldl_cons]
    refine (ih (l.take i)).trans ?_
    cases i <;> rfl

end Level

end Formula
