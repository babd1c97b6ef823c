import Formula.Proofs.Grammar.Limit
import Formula.Proofs.Grammar.Regrouping
import Formula.Proofs.Rendering.Reparse

/-!
Texts that are not read as a given tree. Either the parser fails on such a text, or it reads items of which no tree has the
shape of the given one; and with more text around it neither changes.
-/

namespace Formula

open Text

variable {α : Type} [Scalar α] {g : Grammar} {n : Names}

/-! ## Failing -/

namespace Machine

/-- The run from here ends with an error. -/
def Fails (g : Grammar) (m : Machine α) : Prop := ∃ e, run g m = .error e

variable {c : Cursor} {l : Level α} {outer : List (Suspended α)} {rest : List Char}

theorem Fails.of_steps {m m' : Machine α} (hs : Steps g m m') (h : Fails g m') : Fails g m := by
  obtain ⟨e, he⟩ := h
  exact ⟨e, (run_of_steps hs).trans he⟩

theorem Fails.of_step {m m' : Machine α} (hs : step g m = .next m') (h : Fails g m') : Fails g m :=
  h.of_steps (.single hs)

/-- Behind a sign the machine does what it does elsewhere, save that it takes no further sign. -/
theorem step_afterSign : step g ⟨c, l, outer, .operand true⟩ = step g ⟨c, l, outer, .operand false⟩ ∨
    ∃ e, step g ⟨c, l, outer, .operand true⟩ = .failed e := by
  simp only [step, stepOperand]
  split
  · exact .inl rfl
  · split
    · exact .inl rfl
    · exact .inl rfl
    · exact .inl rfl
    · split
      · exact .inr ⟨.badMinus c.skipSpaces.pos, by simp⟩
      · exact .inl rfl
      · exact .inl rfl
      · exact .inl rfl

theorem run_congr {m m' : Machine α} (h : step g m = step g m') : run g m = run g m' := by
  cases hs : step g m' with
  | next k => rw [run_of_steps (.single (h.trans hs)), run_of_steps (.single hs)]
  | done s rest => rw [run_of_done (h.trans hs), run_of_done hs]
  | failed e => rw [run_of_failed (h.trans hs), run_of_failed hs]

theorem Fails.afterSign (h : Fails g ⟨c, l, outer, .operand false⟩) : Fails g ⟨c, l, outer, .operand true⟩ := by
  have hs : step g ⟨c, l, outer, .operand true⟩ = step g ⟨c, l, outer, .operand false⟩ ∨
      ∃ e, step g ⟨c, l, outer, .operand true⟩ = .failed e := step_afterSign
  rcases hs with hs | ⟨e, he⟩
  · obtain ⟨e, he⟩ := h
    exact ⟨e, (run_congr hs).trans he⟩
  · exact ⟨e, run_of_failed he⟩

/-! One step at a time: the parser fails where it fails behind what it reads next. -/

theorem Fails.group (hs : Spaced c.unread ('(' :: rest)) (hn : g.nameAt? ('(' :: rest) = none)
    (h : ∀ d, d.unread = rest → Fails g ⟨d, l.openParen, outer, .operand false⟩) :
    Fails g ⟨c, l, outer, .operand false⟩ := by
  obtain ⟨d, hd, hstep⟩ := step_group (l := l) hs hn
  exact .of_step hstep (h d hd)

theorem Fails.minus (hs : Spaced c.unread ('-' :: rest)) (hn : g.nameAt? ('-' :: rest) = none)
    (hr : rest.head? ≠ some ' ') (h : ∀ d, d.unread = rest → Fails g ⟨d, l.minus, outer, .operand true⟩) :
    Fails g ⟨c, l, outer, .operand false⟩ := by
  obtain ⟨d, hd, hstep⟩ := step_minus (l := l) hs hn hr
  exact .of_step hstep (h d hd)

theorem Fails.operator {o : BinOp} (hs : Spaced c.unread (o.symbol :: rest))
    (h : ∀ d, d.unread = rest → Fails g ⟨d, l.operator o, outer, .operand false⟩) : Fails g ⟨c, l, outer, .operator⟩ := by
  obtain ⟨d, hd, hstep⟩ := step_operator (g := g) (l := l) hs
  exact .of_step hstep (h d hd)

theorem Fails.word {call : Call α} (hc : call.Starts) (hs : Spaced c.unread (call.name.toList ++ '(' :: rest))
    (hn : g.nameAt? (call.name.toList ++ '(' :: rest) = none) (hd : outer.length + 1 ≤ g.maxDepth)
    (h : ∀ d, d.unread = rest → Fails g ⟨d, {}, ⟨l, call⟩ :: outer, .operand false⟩) :
    Fails g ⟨c, l, outer, .operand false⟩ := by
  obtain ⟨d, hd, hstep⟩ := step_word (l := l) hc hs hn hd
  exact .of_step hstep (h d hd)

theorem Fails.comma {l' : Level α} (hs : Spaced c.unread (',' :: rest)) (ho : l.opened = 0)
    (hd : outer.length + 1 ≤ g.maxDepth)
    (h : ∀ d, d.unread = rest → Fails g ⟨d, {}, ⟨l', .logArgument l.finish⟩ :: outer, .operand false⟩) :
    Fails g ⟨c, l, ⟨l', .logBase⟩ :: outer, .operator⟩ := by
  obtain ⟨d, hd, hstep⟩ := step_base hs ho hd
  exact .of_step hstep (h d hd)

/-- Two signs in a row. -/
theorem fails_double (hg : g.Calls n) (h : Spaced c.unread ('-' :: '-' :: rest)) :
    Fails g ⟨c, l, outer, .operand false⟩ := by
  refine .minus h (hg.nameAt?_mark (by simp)) (by simp) fun d hd => ⟨.badMinus d.skipSpaces.pos, run_of_failed ?_⟩
  have hs : Spaced d.unread ('-' :: rest) := ⟨0, hd⟩
  have hu := skipSpaces_unread hs (by simp)
  have hnone := Cursor.operand?_eq_none (α := α) hu (.inl rfl) (by rw [hu]; exact hg.nameAt?_mark (by simp))
  obtain ⟨d', hd', -⟩ := skipSpaces_symbol (.op .sub) hs
  simp [step, stepOperand, atEnd_eq_false hs (by simp), hnone, hd']

end Machine

/-! ## What becomes of a text -/

/-- No spaces stand before a tight text. -/
theorem Text.Tight.eq_of_spaced {w rest here : List Char} (hw : Tight w) (h : Spaced (w ++ rest) here) :
    here = w ++ rest := by
  obtain ⟨x, u, rfl⟩ := List.exists_cons_of_ne_nil hw.ne_nil
  refine h.eq_of_head ?_
  rintro rfl
  exact hw.head_ne_space rest rfl

/-- The text is read as `t` before whatever may follow an operand. -/
structure Reading (g : Grammar) (w : List Char) (t : Term α) : Prop where
  tight : Tight w
  derives : ∀ rest, Delimits rest → ∃ v k, Derives g false (.expression v) (w ++ rest) rest ∧ Groups k v t

/-- Before whatever may follow an operand `w` is read as items of which no tree has the shape of `t`. -/
def Misread (g : Grammar) (t : Term α) (w : List Char) : Prop :=
  ∀ rest, Delimits rest → ∃ v : List (Item α), Derives g false (.expression v) (w ++ rest) rest ∧ Wrong v t

/-- Where an operand is due and calls may still nest `depth` deep, the parser fails on whatever begins with `w`. -/
def Stuck (α : Type) [Scalar α] (g : Grammar) (depth : Nat) (w : List Char) : Prop :=
  ∀ (c : Cursor) (l : Level α) (outer : List (Suspended α)) (rest : List Char), Spaced c.unread (w ++ rest) →
    depth + outer.length ≤ g.maxDepth → Machine.Fails g ⟨c, l, outer, .operand false⟩

/-- The text is not read as `t`, whatever stands around it. -/
structure Defective (g : Grammar) (t : Term α) (w : List Char) : Prop where
  tight : Tight w
  fault : Misread g t w ∨ Stuck α g t.depth w

theorem Reading.fails {w : List Char} {t : Term α} (h : Reading g w t) (hg : g.Calls n) {c : Cursor} {l : Level α}
    {outer : List (Suspended α)} {rest : List Char} (hc : Spaced c.unread (w ++ rest)) (hr : Delimits rest)
    (hroom : t.depth + outer.length ≤ g.maxDepth)
    (hf : ∀ d v, d.unread = rest → Machine.Fails g ⟨d, l.feed v, outer, .operator⟩) :
    Machine.Fails g ⟨c, l, outer, .operand false⟩ := by
  obtain ⟨v, k, hv, ht⟩ := h.derives rest hr
  obtain ⟨i, hi⟩ := hc
  have hspaced : Derives g true (.expression v) (List.replicate i ' ' ++ (w ++ rest)) rest :=
    hg.ordinary.derives (hv.spaces i)
  obtain ⟨d, hd, hs⟩ := Machine.steps_of_derives hspaced c l outer false hi (by simp) fun u hu =>
    (Nat.add_le_add_right (ht.depth_le u hu) _).trans hroom
  exact (hf d v hd).of_steps hs

namespace Stuck

open Machine

variable {d k : Nat} {w : List Char}

theorem before (h : Stuck α g d w) (hd : d ≤ k) (rest : List Char) : Stuck α g k (w ++ rest) := by
  intro c l outer rest' hc hroom
  refine h c l outer (rest ++ rest') (by simpa using hc) ?_
  omega

theorem double (hg : g.Calls n) (w : List Char) : Stuck α g d ('-' :: '-' :: w) := fun _ _ _ _ hc _ =>
  fails_double hg hc

theorem enclosed (hg : g.Calls n) (h : Stuck α g d w) : Stuck α g d ('(' :: w ++ [')']) := by
  intro c l outer rest hc hroom
  refine .group hc (hg.nameAt?_mark (by simp)) fun c' hc' => ?_
  exact h c' l.openParen outer (')' :: rest) ⟨0, by simp [hc']⟩ hroom

theorem minus (hg : g.Calls n) (h : Stuck α g d w) (hw : Tight w) : Stuck α g d ('-' :: w) := by
  intro c l outer rest hc hroom
  refine .minus hc (hg.nameAt?_mark (by simp)) (hw.head_ne_space rest) fun c' hc' => ?_
  exact (h c' l.minus outer rest ⟨0, hc'⟩ hroom).afterSign

/-- Behind a left operand and an operator. -/
theorem behind (hg : g.Calls n) (h : Stuck α g d w) (hd : d ≤ k) {u : List Char} {t : Term α} (ht : Reading g u t)
    (htd : t.depth ≤ k) (o : BinOp) : Stuck α g k (u ++ [' ', o.symbol, ' '] ++ w) := by
  intro c l outer rest hc hroom
  have hc' : Spaced c.unread (u ++ ' ' :: o.symbol :: ' ' :: (w ++ rest)) := by simpa using hc
  refine ht.fails hg hc' (.cons (by simp) _) (by omega) fun c₁ v h₁ => ?_
  refine .operator ⟨1, h₁⟩ fun c₂ h₂ => ?_
  exact h c₂ _ outer rest ⟨1, h₂⟩ (by omega)

theorem word (hg : g.Calls n) {call : Call α} (hs : call.Starts) {rest : List Char}
    (hn : g.nameAt? (call.name.toList ++ '(' :: rest) = none) (h : Stuck α g d w) :
    Stuck α g (d + 1) (call.name.toList ++ '(' :: w) := by
  intro c l outer rest' hc hroom
  have hc' : Spaced c.unread (call.name.toList ++ '(' :: (w ++ rest')) := by simpa using hc
  refine .word hs hc' (hg.nameAt?_call hn _) (by omega) fun c₁ h₁ => ?_
  refine h c₁ {} _ rest' ⟨0, h₁⟩ ?_
  rw [List.length_cons]
  omega

/-- Behind the base of a logarithm. -/
theorem argument (hg : g.Calls n) (h : Stuck α g d w) {u : List Char} {t : Term α} (ht : Reading g u t) {rest : List Char}
    (hn : g.nameAt? ("log".toList ++ '(' :: rest) = none) :
    Stuck α g (max t.depth d + 1) ("log".toList ++ '(' :: (u ++ ',' :: ' ' :: w)) := by
  intro c l outer rest' hc hroom
  have hc' : Spaced c.unread ("log".toList ++ '(' :: (u ++ ',' :: ' ' :: (w ++ rest'))) := by simpa using hc
  have hlength : (⟨l, .logBase⟩ :: outer : List (Suspended α)).length = outer.length + 1 := rfl
  refine .word (.inl rfl) hc' (hg.nameAt?_call hn _) (by omega) fun c₁ h₁ => ?_
  refine ht.fails hg ⟨0, h₁⟩ (.cons (by simp) _) (by omega) fun c₂ v h₂ => ?_
  refine .comma ⟨0, h₂⟩ (Level.opened_feed {} v) (by omega) fun c₃ h₃ => ?_
  refine h c₃ {} _ rest' ⟨1, h₃⟩ ?_
  rw [List.length_cons]
  omega

end Stuck

/-! ## Reading something else -/

theorem Derives.between {v w : List (Item α)} {a b rest : List Char} {o : BinOp}
    (h : Derives g false (.expression v) (a ++ ' ' :: o.symbol :: ' ' :: (b ++ rest))
      (' ' :: o.symbol :: ' ' :: (b ++ rest)))
    (h' : Derives g false (.expression w) (b ++ rest) rest) :
    Derives g false (.expression (v ++ .op o :: w)) (a ++ [' ', o.symbol, ' '] ++ b ++ rest) rest := by
  simpa using h.append ⟨1, rfl⟩ h'.spaced

/-- A text that does not begin with a sign is read as items that do not. -/
theorem Derives.ne_sign {v : List (Item α)} {w rest : List Char} (hw : Tight w) (hne : ∀ w', w ≠ '-' :: w')
    (h : Derives g false (.expression v) (w ++ rest) rest) (v' : List (Item α)) : v ≠ .sign :: v' := by
  rintro rfl
  obtain ⟨u, b, hu, hv⟩ := h.first
  cases hu with
  | plain => rcases hv with ⟨-, hv⟩ | ⟨o, c, w, -, -, hv⟩ <;> cases hv
  | @minus _ c _ t hs =>
    have he := hw.eq_of_spaced hs
    obtain ⟨x, w', rfl⟩ := List.exists_cons_of_ne_nil hw.ne_nil
    obtain ⟨rfl, -⟩ := List.cons.inj he
    exact hne w' rfl

namespace Misread

variable {t l r u : Term α} {w w' : List Char}

theorem enclosed (h : Misread g t w) : Misread g t ('(' :: w ++ [')']) := by
  intro rest hr
  obtain ⟨v, hv, hw⟩ := h (')' :: rest) (.cons (by simp) rest)
  obtain ⟨u, hu⟩ := hv.groups
  refine ⟨[.operand u], .single (.plain ?_), hw.enclosed hu⟩
  simpa using Derives.group ⟨0, rfl⟩ (by simp) hv hu ⟨0, rfl⟩

theorem minus (h : Misread g t w) (hw : Tight w) (hne : ∀ w', w ≠ '-' :: w') : Misread g (.neg t) ('-' :: w) := by
  intro rest hr
  obtain ⟨v, hv, hwrong⟩ := h rest hr
  exact ⟨_, hv.sign (hv.ne_sign hw hne) (hw.head_ne_space rest), .sign hwrong.operands fun u hu => hwrong.shape _ u hu⟩

theorem before (h : Misread g l w) (hr : Reading g w' r) (o : BinOp) :
    Misread g (.op o l r) (w ++ [' ', o.symbol, ' '] ++ w') := by
  intro rest hd
  obtain ⟨y, k, hy, hyr⟩ := hr.derives rest hd
  obtain ⟨v, hv, hwrong⟩ := h (' ' :: o.symbol :: ' ' :: (w' ++ rest)) (.cons (by simp) _)
  obtain ⟨u, hu⟩ := hv.groups
  exact ⟨_, hv.between hy, hwrong.left hu hyr.operandsIn_eq o⟩

theorem behind (h : Misread g r w') (hl : Reading g w l) (o : BinOp) :
    Misread g (.op o l r) (w ++ [' ', o.symbol, ' '] ++ w') := by
  intro rest hd
  obtain ⟨y, hy, hwrong⟩ := h rest hd
  obtain ⟨v, k, hv, hvl⟩ := hl.derives (' ' :: o.symbol :: ' ' :: (w' ++ rest)) (.cons (by simp) _)
  exact ⟨_, hv.between hy, hwrong.right hvl rfl o⟩

theorem call (hg : g.Calls n) {f : Func} {rest : List Char} (hn : g.nameAt? (f.name.toList ++ '(' :: rest) = none)
    (h : Misread g t w) : Misread g (.call f t) (f.name.toList ++ ('(' :: w ++ [')'])) := by
  intro rest hr
  obtain ⟨v, hv, hwrong⟩ := h (')' :: rest) (.cons (by simp) rest)
  obtain ⟨u, hu⟩ := hv.groups
  refine ⟨[.operand (.call f u)], .single (.plain ?_), .single rfl fun hs => hwrong.shape _ u hu (Term.call.inj hs).2⟩
  simpa using Derives.call ⟨0, rfl⟩ (hg.nameAt?_call hn _) hv hu ⟨0, rfl⟩

theorem base (hg : g.Calls n) {rest : List Char} (hn : g.nameAt? ("log".toList ++ '(' :: rest) = none)
    (h : Misread g t w) (hu : Reading g w' u) :
    Misread g (.log t u) ("log".toList ++ ('(' :: (w ++ ',' :: ' ' :: w') ++ [')'])) := by
  intro rest hr
  obtain ⟨y, k, hy, hyu⟩ := hu.derives (')' :: rest) (.cons (by simp) rest)
  obtain ⟨v, hv, hwrong⟩ := h (',' :: ' ' :: (w' ++ ')' :: rest)) (.cons (by simp) _)
  obtain ⟨t', ht'⟩ := hv.groups
  refine ⟨[.operand (.log t' u)], .single (.plain ?_), .single rfl fun hs => hwrong.shape _ t' ht' (Term.log.inj hs).1⟩
  simpa using Derives.log ⟨0, rfl⟩ (hg.nameAt?_call hn _) hv ht' ⟨0, rfl⟩ hy.spaced hyu.to_sum ⟨0, rfl⟩

theorem argument (hg : g.Calls n) {rest : List Char} (hn : g.nameAt? ("log".toList ++ '(' :: rest) = none)
    (h : Misread g u w') (ht : Reading g w t) :
    Misread g (.log t u) ("log".toList ++ ('(' :: (w ++ ',' :: ' ' :: w') ++ [')'])) := by
  intro rest hr
  obtain ⟨v, hv, hwrong⟩ := h (')' :: rest) (.cons (by simp) rest)
  obtain ⟨y, k, hy, hyt⟩ := ht.derives (',' :: ' ' :: (w' ++ ')' :: rest)) (.cons (by simp) _)
  obtain ⟨u', hu'⟩ := hv.groups
  refine ⟨[.operand (.log t u')], .single (.plain ?_), .single rfl fun hs => hwrong.shape _ u' hu' (Term.log.inj hs).2⟩
  simpa using Derives.log ⟨0, rfl⟩ (hg.nameAt?_call hn _) hy hyt.to_sum ⟨0, rfl⟩ hv.spaced hu' ⟨0, rfl⟩

end Misread

/-- The text is read as `t`, whose outermost operation is a sign or an operator that no parens enclose. -/
structure Bare (g : Grammar) (w : List Char) (t : Term α) : Prop where
  tight : Tight w
  derives : ∀ rest, Delimits rest → ∃ v k, Derives g false (.expression v) (w ++ rest) rest ∧ Groups k v t ∧
    ∀ x, v ≠ [.operand x]

namespace Bare

variable {t l r : Term α} {w w' : List Char}

theorem minus (h : Bare g w t) (ht : t.precedence ≤ signPrecedence) (hne : ∀ w', w ≠ '-' :: w') :
    Misread g (.neg t) ('-' :: w) := by
  intro rest hr
  obtain ⟨v, k, hv, hg, hbare⟩ := h.derives rest hr
  exact ⟨_, hv.sign (hv.ne_sign h.tight hne) (h.tight.head_ne_space rest), .sign_bare hg.operandsIn_eq hbare ht⟩

theorem before (h : Bare g w l) {o : BinOp} (ht : l.precedence < o.precedence) (hr : Reading g w' r) :
    Misread g (.op o l r) (w ++ [' ', o.symbol, ' '] ++ w') := by
  intro rest hd
  obtain ⟨y, j, hy, hyr⟩ := hr.derives rest hd
  obtain ⟨v, k, hv, hvl, hbare⟩ := h.derives (' ' :: o.symbol :: ' ' :: (w' ++ rest)) (.cons (by simp) _)
  exact ⟨_, hv.between hy, .left_bare hvl rfl hyr.operandsIn_eq hbare ht⟩

theorem behind (h : Bare g w' r) {o : BinOp} (ht : r.precedence ≤ o.precedence) (hl : Reading g w l)
    (hsign : ¬ (o = .pow ∧ ∃ x, r = .neg x)) : Misread g (.op o l r) (w ++ [' ', o.symbol, ' '] ++ w') := by
  intro rest hd
  obtain ⟨y, j, hy, hyr, hbare⟩ := h.derives rest hd
  obtain ⟨v, k, hv, hvl⟩ := hl.derives (' ' :: o.symbol :: ' ' :: (w' ++ rest)) (.cons (by simp) _)
  exact ⟨_, hv.between hy, .right_bare hvl rfl hyr.operandsIn_eq hbare ht hsign⟩

end Bare

/-! ## Defects stay -/

theorem Text.tight_minus {w : List Char} (h : Tight w) : Tight ('-' :: w) := by
  have hs : Tight ['-'] := .of_forall (by simp) (by simp; rfl)
  simpa using hs.append [] h

namespace Defective

variable {t l r u : Term α} {w w' : List Char}

theorem enclosed (hg : g.Calls n) (h : Defective g t w) : Defective g t ('(' :: w ++ [')']) :=
  ⟨tight_enclosed w, h.fault.imp Misread.enclosed (Stuck.enclosed hg)⟩

/-- A sign before another one is refused. -/
theorem of_minus (hg : g.Calls n) (hw : Tight w)
    (h : (∀ w', w ≠ '-' :: w') → Misread g (.neg t) ('-' :: w) ∨ Stuck α g t.depth ('-' :: w)) :
    Defective g (.neg t) ('-' :: w) := by
  refine ⟨tight_minus hw, ?_⟩
  by_cases hsign : ∃ w', w = '-' :: w'
  · obtain ⟨w', rfl⟩ := hsign
    exact .inr (.double hg w')
  · exact h fun w' he => hsign ⟨w', he⟩

theorem minus (hg : g.Calls n) (h : Defective g t w) : Defective g (.neg t) ('-' :: w) :=
  .of_minus hg h.tight fun hne => h.fault.imp (fun hf => hf.minus h.tight hne) fun hf => hf.minus hg h.tight

theorem before (h : Defective g l w) (hr : Reading g w' r) (o : BinOp) :
    Defective g (.op o l r) (w ++ [' ', o.symbol, ' '] ++ w') := by
  refine ⟨h.tight.append _ hr.tight, h.fault.imp (fun hf => hf.before hr o) fun hf => ?_⟩
  rw [List.append_assoc]
  exact hf.before (Nat.le_max_left _ _) _

theorem behind (hg : g.Calls n) (h : Defective g r w') (hl : Reading g w l) (o : BinOp) :
    Defective g (.op o l r) (w ++ [' ', o.symbol, ' '] ++ w') :=
  ⟨hl.tight.append _ h.tight, h.fault.imp (fun hf => hf.behind hl o) fun hf =>
    hf.behind hg (Nat.le_max_right _ _) hl (Nat.le_max_left _ _) o⟩

theorem call (hg : g.Calls n) {f : Func} {rest : List Char} (hn : g.nameAt? (f.name.toList ++ '(' :: rest) = none)
    (h : Defective g t w) : Defective g (.call f t) (f.name.toList ++ ('(' :: w ++ [')'])) := by
  refine ⟨?_, h.fault.imp (fun hf => hf.call hg hn) fun hf => ?_⟩
  · simpa using f.word.tight.append [] (tight_enclosed w)
  · have hs : (Call.unary f : Call α).Starts := .inr ⟨f, rfl⟩
    have hword := (hf.word hg hs hn).before le_rfl [')']
    simpa [Call.name, Term.depth] using hword

theorem base (hg : g.Calls n) {rest : List Char} (hn : g.nameAt? ("log".toList ++ '(' :: rest) = none)
    (h : Defective g t w) (hu : Reading g w' u) :
    Defective g (.log t u) ("log".toList ++ ('(' :: (w ++ ',' :: ' ' :: w') ++ [')'])) := by
  refine ⟨?_, h.fault.imp (fun hf => hf.base hg hn hu) fun hf => ?_⟩
  · simpa using word_log.tight.append [] (tight_enclosed (w ++ ',' :: ' ' :: w'))
  · have hs : (Call.logBase : Call α).Starts := .inl rfl
    have hword := (hf.word hg hs hn).before
      (Nat.succ_le_succ (Nat.le_max_left _ u.depth)) (',' :: ' ' :: w' ++ [')'])
    simpa [Call.name, Term.depth] using hword

theorem argument (hg : g.Calls n) {rest : List Char} (hn : g.nameAt? ("log".toList ++ '(' :: rest) = none)
    (h : Defective g u w') (ht : Reading g w t) :
    Defective g (.log t u) ("log".toList ++ ('(' :: (w ++ ',' :: ' ' :: w') ++ [')'])) := by
  refine ⟨?_, h.fault.imp (fun hf => hf.argument hg hn ht) fun hf => ?_⟩
  · simpa using word_log.tight.append [] (tight_enclosed (w ++ ',' :: ' ' :: w'))
  · have hword := (hf.argument hg ht hn).before le_rfl [')']
    simpa [Term.depth] using hword

end Defective

/-! ## Whole texts -/

section Whole

variable {w : List Char} {t : Term α} {s : Sequence α}

theorem Text.Tight.trim_ofList (hw : Tight w) : Text.trim (String.ofList w).toList = w := by
  rw [String.toList_ofList, hw.trim]

/-- However deep calls may nest, a text that is read is parsed to its tree or not at all. -/
theorem Grammar.eq_postorder_of_reads (hg : g.Calls n) (hw : Tight w) (h : g.Reads false w t)
    (hs : g.parse (String.ofList w) = .ok s) : s = t.postorder := by
  have hread : (g.limited (max g.maxDepth t.depth)).parse (String.ofList w) = .ok t.postorder := by
    rw [parse_ok_iff_reads _ _ _ (by rw [hw.trim_ofList]; exact hw.ne_nil), hw.trim_ofList]
    exact ⟨t, (hg.ordinary.reads h).limited _, Nat.le_max_right _ _, rfl⟩
  rcases parse_eq_or_tooDeep (α := α) g (Nat.le_max_left g.maxDepth t.depth) (String.ofList w) with he | he
  · exact Except.ok.inj (hs.symm.trans (he.trans hread))
  · cases hs.symm.trans he

theorem Reading.parse (h : Reading g w t) (hg : g.Calls n) (hd : t.depth ≤ g.maxDepth) :
    g.parse (String.ofList w) = .ok t.postorder := by
  obtain ⟨v, k, hv, ht⟩ := h.derives [] .nil
  rw [List.append_nil] at hv
  rw [Grammar.parse_ok_iff_reads _ _ _ (by rw [h.tight.trim_ofList]; exact h.tight.ne_nil), h.tight.trim_ofList]
  exact ⟨t, hg.ordinary.reads ⟨v, hv, ht.to_sum⟩, hd, rfl⟩

/-- A defective text is refused or parsed to a sequence of another shape. -/
theorem Defective.parse (h : Defective g t w) (hg : g.Calls n) (hd : t.depth ≤ g.maxDepth)
    (hs : g.parse (String.ofList w) = .ok s) : ∃ u : Term α, s = u.postorder ∧ u.shape ≠ t.shape := by
  rcases h.fault with hf | hf
  · obtain ⟨v, hv, hwrong⟩ := hf [] .nil
    obtain ⟨u, hu⟩ := hv.groups
    rw [List.append_nil] at hv
    exact ⟨u, Grammar.eq_postorder_of_reads hg h.tight ⟨v, hv, hu⟩ hs, hwrong.shape _ u hu⟩
  · rw [Grammar.parse_eq_ok (by rw [h.tight.trim_ofList]; exact h.tight.ne_nil), h.tight.trim_ofList] at hs
    obtain ⟨rest, hrun, -⟩ := hs
    obtain ⟨e, he⟩ := hf (.ofList w) {} [] [] ⟨0, by simp [Cursor.ofList]⟩ hd
    cases hrun.symm.trans he

end Whole

end Formula
