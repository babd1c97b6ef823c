import Formula.Proofs.Rendering.Defect
import Formula.Proofs.Rendering.Numeral

/-!
Printing writes no parens that could be left out, apart from those around an exponent that is a negation: without any other
pair the text of a parsed sequence is refused or parsed to another one.
-/

namespace Formula

open Text

/-! ## Pairs that group -/

/-- The name of a function stands right before, so the paren behind `a` opens its arguments. -/
def Text.BehindName (a : List Char) : Prop := "log".toList <:+ a ∨ ∃ f : Func, f.name.toList <:+ a

/-- The pair of parens behind `a` and around `m` encloses an exponent, and the outermost operation in it is a sign. -/
def Grammar.NegatedExponent (α : Type) [Scalar α] (g : Grammar) (a m : List Char) : Prop :=
  ['^', ' '] <:+ a ∧ ∃ s : Sequence α, g.parse (String.ofList m) = .ok (s ++ [.neg])

variable {α : Type} [Scalar α] {g : Grammar} {n : Names}

/-- The pair of parens behind `a` and around `m` groups an operand, and not an exponent that is a negation. -/
structure Grouping (α : Type) [Scalar α] (g : Grammar) (a m : List Char) : Prop where
  call : ¬ BehindName a
  exponent : ¬ g.NegatedExponent α a m

theorem Grouping.of_append {w a m : List Char} (h : Grouping α g (w ++ a) m) : Grouping α g a m := by
  have hw : a <:+ w ++ a := List.suffix_append w a
  refine ⟨fun hc => h.call ?_, fun he => h.exponent ⟨he.1.trans hw, he.2⟩⟩
  rcases hc with hlog | ⟨f, hf⟩
  · exact .inl (hlog.trans hw)
  · exact .inr ⟨f, hf.trans hw⟩

/-! ## Printed operands -/

theorem BinOp.precedence_le (o : BinOp) : o.precedence ≤ 4 := by cases o <;> decide

/-- The text `p` is read as `t`, and tells how tightly the outermost operator of `t` binds. -/
structure Printed (g : Grammar) (p : Piece) (t : Term α) : Prop where
  tight : Tight p.text.toList
  reads : p.Reads g t
  precedence : p.precedence = t.precedence

theorem Reading.matched {w : List Char} {t : Term α} (h : Reading g w t) (hg : g.Calls n) : Matched w := by
  obtain ⟨v, k, hv, -⟩ := h.derives [] .nil
  obtain ⟨w', hs, hw'⟩ := hv.excerpt hg
  have he := h.tight.eq_of_spaced hs
  rw [List.append_nil, List.append_nil] at he
  rw [← he]
  exact hw'.matched

namespace Printed

variable {p q : Piece} {t l r : Term α}

theorem pos (h : Printed g p t) : 1 ≤ p.precedence := h.precedence ▸ t.precedence_pos

theorem reading (h : Printed g p t) (parens : Bool) : Reading g (p.enclosed parens).toList t := by
  refine ⟨Piece.tight_enclosed h.tight parens, fun rest hr => ?_⟩
  obtain ⟨v, hv, ht, -⟩ := h.reads.enclosed h.pos (k := .sum) (fun _ => h.pos) hr
  exact ⟨v, .sum, hv, ht⟩

theorem bare (h : Printed g p t) (hp : t.precedence ≤ 4) : Bare g p.text.toList t := by
  refine ⟨h.tight, fun rest hr => ?_⟩
  obtain ⟨v, hv, ht, hone⟩ := h.reads rest hr
  refine ⟨v, .sum, hv, ht .sum h.pos, ?_⟩
  rintro x rfl
  obtain rfl := (ht .sum h.pos).of_singleton
  exact absurd (hone.1 rfl) (by rw [h.precedence]; exact Nat.not_lt_of_le hp)

end Printed

theorem Legible.printed {t : Term α} (h : Legible g t) (hg : g.Calls n) (f : α → α)
    (hl : ∀ v ∈ t.literals, Scalar.ReadsAs v (f v) ∧ Scalar.isNegative v = false) : Printed g (t.piece n) (t.map f) := by
  refine ⟨h.tight hg fun v hv => ⟨f v, (hl v hv).1⟩, h.reads_map hg f hl, ?_⟩
  cases t with
  | number v => simp [Term.piece, Piece.number, (hl v (by simp [Term.literals])).2, Term.map, Term.precedence]
  | var | call | log | neg | op => rfl

/-! ## No pair can be left out -/

/-- Without any of the pairs of parens that group, the text is not read as `t`. -/
def Minimal (g : Grammar) (w : List Char) (t : Term α) : Prop :=
  ∀ a m b, Pair w a m b → Grouping α g a m → Defective g t (a ++ m ++ b)

/-- The pair is one within an operand or the one around it. -/
theorem Printed.without {p : Piece} {t : Term α} {parens : Bool} {a m b : List Char} (h : Printed g p t) (hg : g.Calls n)
    (hm : Minimal g p.text.toList t) (hp : Pair (p.enclosed parens).toList a m b) (hk : Grouping α g a m) :
    Defective g t (a ++ m ++ b) ∨ parens = true ∧ a = [] ∧ m = p.text.toList ∧ b = [] := by
  cases parens with
  | false => exact .inl (hm a m b hp hk)
  | true =>
    have hp' : Pair ('(' :: p.text.toList ++ [')']) a m b := by simpa [Piece.enclosed] using hp
    rcases hp'.of_enclosed ((h.reading false).matched hg) with hout | ⟨a', b', hin, rfl, rfl⟩
    · exact .inr ⟨rfl, hout⟩
    · refine .inl ?_
      simpa using (hm a' m b' hin (hk.of_append (w := ['(']))).enclosed hg

namespace Minimal

variable {p q : Piece} {t u l r : Term α} {w : List Char}

theorem of_word (h : Word w) : Minimal g w t := fun _ _ _ hp _ => absurd rfl (h.solid '(' hp.mem).2.1

theorem neg (hg : g.Calls n) (h : Printed g p t) (hm : Minimal g p.text.toList t) {parens : Bool}
    (hc : parens = true → t.precedence ≤ signPrecedence) : Minimal g ('-' :: (p.enclosed parens).toList) (.neg t) := by
  intro a m b hp hk
  obtain ⟨a', hin, rfl⟩ := Pair.behind (w := ['-']) (by simp) hp
  rcases h.without hg hm hin hk.of_append with hd | ⟨hparens, rfl, rfl, rfl⟩
  · simpa using hd.minus hg
  · have hlow := hc hparens
    have hd : Defective g (.neg t) ('-' :: p.text.toList) :=
      .of_minus hg h.tight fun hne => .inl ((h.bare (hlow.trans (by decide))).minus hlow hne)
    simpa using hd

theorem op (hg : g.Calls n) (hl : Printed g p l) (hr : Printed g q r) (hml : Minimal g p.text.toList l)
    (hmr : Minimal g q.text.toList r) (hd : r.depth ≤ g.maxDepth) {o : BinOp} {i j : Bool}
    (hi : i = true → l.precedence < o.precedence) (hj : j = true → r.precedence ≤ o.precedence) :
    Minimal g ((p.enclosed i).toList ++ [' ', o.symbol, ' '] ++ (q.enclosed j).toList) (.op o l r) := by
  intro a m b hp hk
  have hsymbol : ∀ x ∈ [' ', o.symbol, ' '], x ≠ '(' ∧ x ≠ ')' := by cases o <;> simp [BinOp.symbol]
  rcases hp.around ((hl.reading i).matched hg) hsymbol with ⟨b', hin, rfl⟩ | ⟨a', hin, rfl⟩
  · rcases hl.without hg hml hin hk with hdef | ⟨hparens, rfl, rfl, rfl⟩
    · simpa using hdef.before (hr.reading j) o
    · have hlow := hi hparens
      have hbare := hl.bare (hlow.le.trans o.precedence_le)
      have hwrong := hbare.before hlow (hr.reading j)
      simpa using Defective.mk (hbare.tight.append _ (hr.reading j).tight) (.inl hwrong)
  · rcases hr.without hg hmr hin hk.of_append with hdef | ⟨hparens, rfl, rfl, rfl⟩
    · simpa using hdef.behind hg (hl.reading i) o
    · have hlow := hj hparens
      have hbare := hr.bare (hlow.trans o.precedence_le)
      -- A sign may stand right behind `^`, so the parens around such an exponent are the ones not spoken of.
      have hsign : ¬ (o = .pow ∧ ∃ x, r = .neg x) := by
        rintro ⟨rfl, x, rfl⟩
        have hpow : ['^', ' '] <:+ (p.enclosed i).toList ++ [' ', '^', ' '] ++ [] :=
          ⟨(p.enclosed i).toList ++ [' '], by simp⟩
        exact hk.exponent ⟨hpow, x.postorder, (hr.reading false).parse hg hd⟩
      have hwrong := hbare.behind hlow (hl.reading i) hsign
      simpa using Defective.mk ((hl.reading i).tight.append _ hbare.tight) (.inl hwrong)

theorem call (hg : g.Calls n) {f : Func} {rest : List Char} (hn : g.nameAt? (f.name.toList ++ '(' :: rest) = none)
    (h : Printed g p t) (hm : Minimal g p.text.toList t) :
    Minimal g (f.name.toList ++ ('(' :: p.text.toList ++ [')'])) (.call f t) := by
  intro a m b hp hk
  obtain ⟨a', hp', rfl⟩ := hp.behind fun x hx => (f.word.solid x hx).2
  rcases hp'.of_enclosed ((h.reading false).matched hg) with ⟨rfl, -, -⟩ | ⟨a', b', hin, rfl, rfl⟩
  · exact absurd (.inr ⟨f, by simp⟩) hk.call
  · simpa using (hm a' m b' hin (hk.of_append.of_append (w := ['(']))).call hg hn

theorem log (hg : g.Calls n) {rest : List Char} (hn : g.nameAt? ("log".toList ++ '(' :: rest) = none)
    (ht : Printed g p t) (hu : Printed g q u) (hmt : Minimal g p.text.toList t) (hmu : Minimal g q.text.toList u) :
    Minimal g ("log".toList ++ ('(' :: (p.text.toList ++ [',', ' '] ++ q.text.toList) ++ [')'])) (.log t u) := by
  intro a m b hp hk
  have ht' : Reading g p.text.toList t := ht.reading false
  have hu' : Reading g q.text.toList u := hu.reading false
  have hcomma : Matched [',', ' '] := by decide
  obtain ⟨a', hp', rfl⟩ := hp.behind fun x hx => (word_log.solid x hx).2
  rcases hp'.of_enclosed (((ht'.matched hg).append hcomma).append (hu'.matched hg)) with
    ⟨rfl, -, -⟩ | ⟨a', b', hin, rfl, rfl⟩
  · exact absurd (.inl (by simp)) hk.call
  have hk' := hk.of_append.of_append (w := ['('])
  rcases hin.around (ht'.matched hg) (by simp) with ⟨b', hone, rfl⟩ | ⟨a', hone, rfl⟩
  · simpa using (hmt a' m b' hone hk').base hg hn hu'
  · simpa using (hmu a' m b' hone hk'.of_append).argument hg hn ht'

end Minimal

/-- By the tree: a pair is around an operand or within one. -/
theorem Legible.minimal {t : Term α} (h : Legible g t) (hg : g.Calls n) (f : α → α)
    (hl : ∀ v ∈ t.literals, Scalar.ReadsAs v (f v) ∧ Scalar.isNegative v = false) (hd : t.depth ≤ g.maxDepth) :
    Minimal g (t.piece n).text.toList (t.map f) := by
  induction h with
  | leaf h =>
    cases h with
    | @name name slot _ hn =>
      refine .of_word ?_
      rw [Term.piece, Piece.atom, ← hg.eq_of (Grammar.nameAt?_prefix hn).1]
      exact hg.word hn
    | euler | pi | numeral =>
      obtain ⟨m, ⟨hne, hdigits⟩, ht, -⟩ := (hl _ List.mem_cons_self).1
      refine .of_word ?_
      rw [Term.piece, Piece.number, ht, String.toList_ofList]
      exact m.word hne hdigits
  | @call f' t _ hn h ih =>
    rw [Term.depth] at hd
    simpa [Term.piece, Piece.atom, Term.map] using Minimal.call hg hn (h.printed hg f hl) (ih hl (by omega))
  | @log t u _ hn ht hu iht ihu =>
    simp only [Term.literals, List.mem_append] at hl
    rw [Term.depth] at hd
    have hlt := fun v hv => hl v (.inl hv)
    have hlu := fun v hv => hl v (.inr hv)
    simpa [Term.piece, Piece.atom, Term.map] using Minimal.log hg hn (ht.printed hg f hlt) (hu.printed hg f hlu)
      (iht hlt (by omega)) (ihu hlu (by omega))
  | neg h ih =>
    have hp := h.printed hg f hl
    simpa [Term.piece, Piece.neg, Term.map] using Minimal.neg hg hp (ih hl hd) fun hc =>
      hp.precedence ▸ of_decide_eq_true hc
  | @op o l r hl' hr ihl ihr =>
    simp only [Term.literals, List.mem_append] at hl
    rw [Term.depth] at hd
    have hll := fun v hv => hl v (.inl hv)
    have hlr := fun v hv => hl v (.inr hv)
    have hpl := hl'.printed hg f hll
    have hpr := hr.printed hg f hlr
    have hdr : (r.map f).depth ≤ g.maxDepth := by
      rw [Term.depth_map]
      omega
    simpa [Term.piece, Piece.op, Term.map] using Minimal.op hg hpl hpr (ihl hll (by omega)) (ihr hlr (by omega)) hdr
      (fun hc => hpl.precedence ▸ of_decide_eq_true hc) (fun hc => hpr.precedence ▸ of_decide_eq_true hc)

namespace Grammar

variable {text : String} {s s' : Sequence Float} {a m b : List Char}

/-- Leaving out a pair of parens from the text of a parsed sequence gives a text that is refused or parsed to something
else, unless the pair belongs to a call or encloses a negation as an exponent. -/
theorem parse_without_parens (hg : g.Calls n) (h : g.parse text = .ok s) (hf : ∀ v ∈ s.literals, Scalar.isFinite v)
    (hp : Pair (s.render n).toList a m b) (hcall : ¬ BehindName a) (hexp : ¬ g.NegatedExponent Float a m)
    (h' : g.parse (String.ofList (a ++ m ++ b)) = .ok s') : s' ≠ s ∧ Sequence.same s' s = false := by
  rcases reads_of_parse h with rfl | ⟨t, hr, hd, rfl⟩
  · exact absurd hp.mem (by simp [Sequence.render, Sequence.pieces, joined])
  rw [t.literals_postorder] at hf
  rw [t.render_postorder] at hp
  have hl : ∀ v ∈ t.literals, ∃ w, Scalar.ReadsAs v w ∧ Scalar.isNegative v = false := by
    intro v hv
    obtain ⟨digits, places, hdigits⟩ := hr.legible.literals v hv
    have hneg : Scalar.isNegative v = false := by
      rw [hdigits]
      exact (Scalar.ofDigits_unsigned digits places).2
    obtain ⟨w, hw⟩ := Scalar.exists_readsAs (hf v hv) hneg
    exact ⟨w, hw, hneg⟩
  -- What the numerals denote need not be the numbers printed, so the shapes are compared.
  choose! f hf' using hl
  have hdef := hr.legible.minimal hg f hf' hd a m b hp ⟨hcall, hexp⟩
  obtain ⟨u, rfl, hu⟩ := hdef.parse hg (by rwa [Term.depth_map]) h'
  rw [Term.shape_map] at hu
  exact Sequence.postorder_ne_of_shape_ne hu

theorem parse_without_parens_square :
    (oneVariable "x").parse (α := Float) "(-x) ^ 2" =
      .ok [.var .independent, .neg, .number (Numeral.value ⟨['2'], []⟩), .op .pow] ∧
    (oneVariable "x").parse (α := Float) "-x ^ 2" =
      .ok [.var .independent, .number (Numeral.value ⟨['2'], []⟩), .op .pow, .neg] ∧
    ([.var .independent, .number (Numeral.value ⟨['2'], []⟩), .op .pow, .neg] : Sequence Float) ≠
      [.var .independent, .neg, .number (Numeral.value ⟨['2'], []⟩), .op .pow] ∧
    Sequence.same (α := Float) [.var .independent, .number (Numeral.value ⟨['2'], []⟩), .op .pow, .neg]
      [.var .independent, .neg, .number (Numeral.value ⟨['2'], []⟩), .op .pow] = false := by
  have hg : (oneVariable "x").Calls {} := Speaks.calls ⟨.inl rfl, by simp [oneVariable]⟩
  have hx : Leaf (α := Float) (oneVariable "x") ("x".toList ++ []) (.var .independent) [] := .name (by decide)
  have h2 : Leaf (α := Float) (oneVariable "x") ['2'] (.number (Numeral.value ⟨['2'], []⟩)) [] :=
    .numeral (by decide) ⟨rfl, by simp, by simp, by simp, by simp, by simp⟩
  have hl : ∀ v ∈ [(Numeral.value ⟨['2'], []⟩ : Float)], Printable v := by
    intro v hv
    rw [List.mem_singleton.1 hv]
    exact ⟨⟨⟨['2'], []⟩, by simp, by decide +kernel, rfl⟩, by decide +kernel⟩
  have hbase := (Legible.op (o := .pow) (.neg (.leaf hx)) (.leaf h2)).reparse hg (by decide) hl
  have hpower := (Legible.neg (.op (o := .pow) (.leaf hx) (.leaf h2))).reparse hg (by decide) hl
  have htext : Sequence.render {} ([.var .independent, .neg, .number (Numeral.value ⟨['2'], []⟩), .op .pow] :
      Sequence Float) = "(-x) ^ 2" := by decide +kernel
  have hother : Sequence.render {} ([.var .independent, .number (Numeral.value ⟨['2'], []⟩), .op .pow, .neg] :
      Sequence Float) = "-x ^ 2" := by decide +kernel
  have hfinite : ∀ v ∈ Sequence.literals [.var .independent, .neg, .number (Numeral.value ⟨['2'], []⟩ : Float), .op .pow],
      Scalar.isFinite v := by
    intro v hv
    have hv' : v = Numeral.value ⟨['2'], []⟩ := by simpa [Sequence.literals, Token.literals] using hv
    rw [hv']
    decide +kernel
  have hcall : ¬ BehindName [] := by
    rintro (hlog | ⟨f, hf⟩)
    · simp at hlog
    · exact f.word.ne_nil (List.suffix_nil.1 hf)
  have hexp : ¬ (oneVariable "x").NegatedExponent Float [] ['-', 'x'] := fun he => by simpa using he.1
  have hpair : Pair "(-x) ^ 2".toList [] ['-', 'x'] [' ', '^', ' ', '2'] := ⟨by decide, by decide⟩
  have hparse : (oneVariable "x").parse "-x ^ 2" = _ := hother ▸ hpower
  exact ⟨htext ▸ hbase, hparse, parse_without_parens hg hbase hfinite (htext ▸ hpair) hcall hexp hparse⟩

end Grammar

end Formula
