import Formula.Proofs.Grammar.Naming
import Formula.Proofs.Grammar.Operand
import Formula.Proofs.Text

/-!
What a phrase reads means the same wherever it stands: no blanks at its ends, its parens matched, and behind it the end
of the text or any mark that ends an operand.
-/

namespace Formula

open Text

variable {α : Type}

/-! ## What may follow an operand -/

def Delimits (rest : List Char) : Prop := ∀ x, rest.head? = some x → x ∈ [' ', ')', ',', '+', '-', '*', '/', '^']

namespace Delimits

variable {rest : List Char}

theorem nil : Delimits [] := by
  rintro _ ⟨⟩

theorem cons {x : Char} (hx : x ∈ [' ', ')', ',', '+', '-', '*', '/', '^']) (rest : List Char) : Delimits (x :: rest) := by
  rintro _ ⟨⟩
  exact hx

theorem spaces (h : Delimits rest) (k : Nat) : Delimits (List.replicate k ' ' ++ rest) := by
  cases k with
  | zero => exact h
  | succ k => exact .cons (by simp) _

theorem not_isPlain (h : Delimits rest) (x : Char) (hx : rest.head? = some x) : isPlain x = false := by
  have hall : ∀ x ∈ [' ', ')', ',', '+', '-', '*', '/', '^'], isPlain x = false := by simp [Text.not_isPlain]
  exact hall x (h x hx)

theorem not_numeral (h : Delimits rest) (x : Char) (hx : rest.head? = some x) : x.isDigit = false ∧ x ≠ '.' := by
  have hall : ∀ x ∈ [' ', ')', ',', '+', '-', '*', '/', '^'], x.isDigit = false ∧ x ≠ '.' := by simp
  exact hall x (h x hx)

theorem symbol (o : BinOp) (rest : List Char) : Delimits (o.symbol :: rest) :=
  .cons (by cases o <;> simp [BinOp.symbol]) rest

end Delimits

/-! ## Putting texts together -/

theorem Spaced.eq_of_head {x : Char} {a here : List Char} (h : Spaced (x :: a) here) (hx : x ≠ ' ') : here = x :: a := by
  obtain ⟨_ | k, hk⟩ := h
  · simpa using hk.symm
  · exact absurd (List.cons.inj hk).1 hx

variable [Scalar α] {g : Grammar} {n : Names} {ordered : Bool}

namespace Derives

variable {v w : List (Item α)} {a b c d : List Char}

theorem spaced {p : Phrase α} (h : Derives g ordered p a b) : Derives g ordered p (' ' :: a) b := by
  have hs : ∀ {a here : List Char}, Spaced a here → Spaced (' ' :: a) here := by
    rintro a here ⟨n, rfl⟩
    exact ⟨n + 1, rfl⟩
  induction h with
  | leaf h hh hl => exact .leaf (hs h) hh hl
  | call h hn hv ht hc _ => exact .call (hs h) hn hv ht hc
  | log h hn hv ht hm hw hu hc _ _ => exact .log (hs h) hn hv ht hm hw hu hc
  | group h hn hv ht hc _ => exact .group (hs h) hn hv ht hc
  | plain _ ih => exact .plain ih
  | minus h hn hb ht _ => exact .minus (hs h) hn hb ht
  | single _ ih => exact .single ih
  | more _ hm hw ih _ => exact .more ih hm hw

theorem spaces {p : Phrase α} (h : Derives g ordered p a b) (k : Nat) :
    Derives g ordered p (List.replicate k ' ' ++ a) b := by
  induction k with
  | zero => exact h
  | succ k ih => exact ih.spaced

theorem append {o : BinOp} (h : Derives g ordered (.expression v) a b) (hs : Spaced b (o.symbol :: c))
    (hw : Derives g ordered (.expression w) c d) : Derives g ordered (.expression (v ++ .op o :: w)) a d := by
  generalize hp : Phrase.expression w = p at hw
  induction hw generalizing w with
  | leaf | call | log | group | plain | minus => cases hp
  | single hu =>
    cases hp
    exact .more h hs hu
  | more _ hm hu ih =>
    cases hp
    simpa using Derives.more (ih hs rfl) hm hu

theorem sign (h : Derives g false (.expression v) a b) (hv : ∀ w, v ≠ .sign :: w) (ha : a.head? ≠ some ' ') :
    Derives g false (.expression (.sign :: v)) ('-' :: a) b := by
  generalize hp : Phrase.expression v = p at h
  induction h generalizing v with
  | leaf | call | log | group | plain | minus => cases hp
  | single hu =>
    cases hp
    cases hu with
    | plain ht => exact .single (.minus ⟨0, rfl⟩ (by simp) ha ht)
    | minus => simp at hv
  | @more a b c d v' w o hl hm hu ih =>
    cases hp
    refine .more (v := .sign :: v') (ih (fun u hu => ?_) ha rfl) hm hu
    exact hv (u ++ .op o :: w) (by rw [hu, List.cons_append])

/-- The first operand of an expression, and what stands behind it. -/
theorem first (h : Derives g ordered (.expression v) a d) : ∃ u b, Derives g ordered (.unit u) a b ∧
    (b = d ∧ v = u ∨
      ∃ o c w, Spaced b (o.symbol :: c) ∧ Derives g ordered (.expression w) c d ∧ v = u ++ .op o :: w) := by
  generalize hp : Phrase.expression v = p at h
  induction h generalizing v with
  | leaf | call | log | group | plain | minus => cases hp
  | single hu =>
    cases hp
    exact ⟨_, _, hu, .inl ⟨rfl, rfl⟩⟩
  | @more a b c d v w o _ hs hw ih _ =>
    cases hp
    obtain ⟨u, b', hu, ⟨rfl, rfl⟩ | ⟨o', c', w', hs', hw', rfl⟩⟩ := ih rfl
    · exact ⟨v, b', hu, .inr ⟨o, c, w, hs, .single hw, rfl⟩⟩
    · exact ⟨u, b', hu, .inr ⟨o', c', w' ++ .op o :: w, hs', .more hw' hs hw, by simp⟩⟩

end Derives

/-! ## Words -/

theorem Func.word (f : Func) : Word f.name.toList := .of_all_isAlphanum (by cases f <;> decide)

theorem word_log : Word "log".toList := .of_all_isAlphanum (by decide)

theorem Numeral.word {m : Numeral} (hne : m.whole ≠ []) (hd : ∀ c ∈ m.whole ++ m.fraction, c.isDigit) :
    Word m.text := by
  refine ⟨text_ne_nil hne, fun x hx => ?_⟩
  by_cases hp : x = '.'
  · rw [hp]
    decide
  · have hm : x ∈ m.whole ++ m.fraction := by
      unfold text at hx
      split at hx
      · simp [hx]
      · simpa [hp] using hx
    have hw : Word [x] := .of_isAlphanum (by simp) (by simp [Char.isAlphanum, hd x hm])
    exact hw.solid x (by simp)

omit [Scalar α] in
theorem Grammar.Calls.word (hg : g.Calls n) {name : String} {slot : Slot} {rest : List Char}
    (h : g.nameAt? (name.toList ++ rest) = some (name, slot)) : Word name.toList := by
  obtain ⟨hm, hne, -⟩ := nameAt?_prefix h
  refine ⟨hne, fun x hx => ?_⟩
  have hp := hg.plain _ hm x hx
  exact ⟨isBlank_of_isPlain hp, ne_of_isPlain hp (not_isPlain (by simp)), ne_of_isPlain hp (not_isPlain (by simp))⟩

/-- A numeral ends where it may, so it is read as its number. -/
theorem Grammar.Calls.numeral (hg : g.Calls n) {m : Numeral} (hne : m.whole ≠ [])
    (hd : ∀ c ∈ m.whole ++ m.fraction, c.isDigit) {rest : List Char} (hr : Delimits rest) :
    Leaf (α := α) g (m.text ++ rest) (.number m.value) rest := by
  have hl : m.Longest (m.text ++ rest) rest :=
    ⟨rfl, hne, fun c hc => hd c (by simp [hc]), fun c hc => hd c (by simp [hc]), fun x hx => (hr.not_numeral x hx).1,
      fun _ hx => (hr.not_numeral '.' hx).2 rfl⟩
  obtain ⟨x, hx, hdigit⟩ := hl.head
  exact .numeral (hg.nameAt?_eq_none ⟨x, hx, isPlain_of_isDigit hdigit⟩) hl

/-- An operand of one token is a word, and remains an operand before whatever may follow one. -/
theorem Leaf.word {here b : List Char} {t : Term α} (hg : g.Calls n) (h : Leaf g here t b) :
    ∃ w, here = w ++ b ∧ Word w ∧ ∀ rest, Delimits rest → Leaf g (w ++ rest) t rest := by
  cases h with
  | @name name slot _ hn => exact ⟨_, rfl, hg.word hn, fun rest hr => .name (hg.nameAt?_some hn hr.not_isPlain)⟩
  | euler hn =>
    exact ⟨['e'], rfl, .of_isAlphanum (by simp) (by simp), fun rest hr =>
      .euler (hg.nameAt?_none (w := ['e']) hn hr.not_isPlain)⟩
  | pi hn =>
    exact ⟨['p', 'i'], rfl, .of_isAlphanum (by simp) (by simp), fun rest hr =>
      .pi (hg.nameAt?_none (w := ['p', 'i']) hn hr.not_isPlain)⟩
  | @numeral m _ _ hn hl =>
    obtain ⟨ht, hne, hw, hf, -, -⟩ := hl
    have hd : ∀ c ∈ m.whole ++ m.fraction, c.isDigit := fun c hc => (List.mem_append.1 hc).elim (hw c) (hf c)
    exact ⟨m.text, ht, m.word hne hd, fun rest hr => hg.numeral hne hd hr⟩

/-! ## Excerpts -/

/-- The text `w` is read as `p` before whatever may follow an operand. -/
structure Excerpt (g : Grammar) (ordered : Bool) (p : Phrase α) (w : List Char) : Prop where
  tight : Tight w
  matched : Matched w
  derives : ∀ rest, Delimits rest → Derives g ordered p (w ++ rest) rest

/-- The text `m` is read as `v` between parens and commas, where spaces around it do not count, and as a whole text. -/
structure Inset (g : Grammar) (ordered : Bool) (v : List (Item α)) (m : List Char) : Prop where
  matched : Matched m
  derives : ∀ x ∈ [')', ','], ∀ rest, ∃ c, Derives g ordered (.expression v) (m ++ x :: rest) c ∧ Spaced c (x :: rest)
  whole : Derives g ordered (.expression v) (trim m) []

variable {v u : List (Item α)} {t : Term α} {w m : List Char}

theorem Excerpt.inset (h : Excerpt g ordered (.expression v) w) {b c d : List Char} {x : Char} (hb : Spaced b (w ++ c))
    (hc : Spaced c (x :: d)) : ∃ m, b = m ++ x :: d ∧ Inset g ordered v m := by
  obtain ⟨i, rfl⟩ := hb
  obtain ⟨j, rfl⟩ := hc
  have hspace : ∀ k, ∀ x ∈ List.replicate k ' ', isBlank x := fun k x hx => by
    rw [List.eq_of_mem_replicate hx]
    rfl
  refine ⟨List.replicate i ' ' ++ w ++ List.replicate j ' ', by simp, ?_, fun x hx rest => ?_, ?_⟩
  · exact ((Matched.spaces i).append h.matched).append (.spaces j)
  · have hd : Delimits (List.replicate j ' ' ++ x :: rest) := .spaces (.cons (by simp at hx ⊢; tauto) rest) j
    exact ⟨_, by simpa using (h.derives _ hd).spaces i, j, rfl⟩
  · rw [h.tight.trim_append (hspace i) (hspace j)]
    simpa using h.derives [] .nil

namespace Inset

theorem group (hg : g.Calls n) (h : Inset g ordered v m) (ht : Groups .sum v t) :
    Excerpt g ordered (.primary t) ('(' :: m ++ [')']) := by
  refine ⟨tight_enclosed m, h.matched.enclosed, fun rest _ => ?_⟩
  obtain ⟨c, hv, hc⟩ := h.derives ')' (by simp) rest
  simpa using Derives.group ⟨0, rfl⟩ (fun _ => hg.nameAt?_mark (by simp)) hv ht hc

theorem call {f : Func} (hn : ∀ rest, g.nameAt? (f.name.toList ++ '(' :: rest) = none) (h : Inset g ordered v m)
    (ht : Groups .sum v t) : Excerpt g ordered (.primary (.call f t)) (f.name.toList ++ ('(' :: m ++ [')'])) := by
  refine ⟨?_, f.word.matched.append h.matched.enclosed, fun rest _ => ?_⟩
  · simpa using f.word.tight.append [] (tight_enclosed m)
  · obtain ⟨c, hv, hc⟩ := h.derives ')' (by simp) rest
    simpa using Derives.call ⟨0, rfl⟩ (hn _) hv ht hc

theorem log (hn : ∀ rest, g.nameAt? ("log".toList ++ '(' :: rest) = none) (h : Inset g ordered v m)
    (ht : Groups .sum v t) {m' : List Char} {t' : Term α} (h' : Inset g ordered u m') (ht' : Groups .sum u t') :
    Excerpt g ordered (.primary (.log t t')) ("log".toList ++ ('(' :: (m ++ ',' :: m') ++ [')'])) := by
  have hcomma : Matched [','] := by decide
  refine ⟨?_, word_log.matched.append (h.matched.append (hcomma.append h'.matched)).enclosed, fun rest _ => ?_⟩
  · simpa using word_log.tight.append [] (tight_enclosed (m ++ ',' :: m'))
  · obtain ⟨c, hv, hc⟩ := h.derives ',' (by simp) (m' ++ ')' :: rest)
    obtain ⟨d, hu, hd⟩ := h'.derives ')' (by simp) rest
    simpa using Derives.log ⟨0, rfl⟩ (hn _) hv ht hc hu ht' hd

end Inset

namespace Excerpt

theorem minus (hg : g.Calls n) (h : Excerpt g ordered (.primary t) w) :
    Excerpt g ordered (.unit [.sign, .operand t]) ('-' :: w) := by
  have hsign : Word ['-'] := ⟨by simp, by simp; decide⟩
  refine ⟨by simpa using hsign.tight.append [] h.tight, hsign.matched.append h.matched, fun rest hr => ?_⟩
  exact .minus ⟨0, rfl⟩ (fun _ => hg.nameAt?_mark (by simp)) (h.tight.head_ne_space rest) (h.derives rest hr)

theorem more {o : BinOp} (h : Excerpt g ordered (.expression v) w) {w' : List Char}
    (h' : Excerpt g ordered (.unit u) w') (i j : Nat) : Excerpt g ordered (.expression (v ++ .op o :: u))
      (w ++ (List.replicate i ' ' ++ o.symbol :: List.replicate j ' ') ++ w') := by
  have hop : Matched [o.symbol] := by cases o <;> decide
  refine ⟨h.tight.append _ h'.tight, ?_, fun rest hr => ?_⟩
  · exact (h.matched.append ((Matched.spaces i).append (hop.append (.spaces j)))).append h'.matched
  · have hv := h.derives _ ((Delimits.symbol o (List.replicate j ' ' ++ (w' ++ rest))).spaces i)
    simpa using Derives.more hv ⟨i, rfl⟩ ((h'.derives rest hr).spaces j)

end Excerpt

/-- By the derivation: whatever is read is an excerpt, with spaces before it. -/
theorem Derives.excerpt (hg : g.Calls n) {p : Phrase α} {a b : List Char} (h : Derives g ordered p a b) :
    ∃ w, Spaced a (w ++ b) ∧ Excerpt g ordered p w := by
  induction h with
  | leaf hs _ hl =>
    obtain ⟨w, rfl, hw, hr⟩ := hl.word hg
    refine ⟨w, hs, hw.tight, hw.matched, fun rest hd => ?_⟩
    exact .leaf ⟨0, rfl⟩ (fun _ => hw.tight.head_ne_space rest) (hr rest hd)
  | call hs hn _ ht hc ih =>
    obtain ⟨w, hb, hw⟩ := ih
    obtain ⟨m, rfl, hm⟩ := hw.inset hb hc
    exact ⟨_, by simpa using hs, hm.call (hg.nameAt?_call hn) ht⟩
  | log hs hn _ ht hc _ ht' hd ih ih' =>
    obtain ⟨w, hb, hw⟩ := ih
    obtain ⟨w', hb', hw'⟩ := ih'
    obtain ⟨m', rfl, hm'⟩ := hw'.inset hb' hd
    obtain ⟨m, rfl, hm⟩ := hw.inset hb hc
    exact ⟨_, by simpa using hs, hm.log (hg.nameAt?_call hn) ht hm' ht'⟩
  | group hs _ _ ht hc ih =>
    obtain ⟨w, hb, hw⟩ := ih
    obtain ⟨m, rfl, hm⟩ := hw.inset hb hc
    exact ⟨_, by simpa using hs, hm.group hg ht⟩
  | plain _ ih =>
    obtain ⟨w, hs, ht, hm, hd⟩ := ih
    exact ⟨w, hs, ht, hm, fun rest hr => .plain (hd rest hr)⟩
  | minus hs _ hb _ ih =>
    obtain ⟨w, ⟨k, rfl⟩, hw⟩ := ih
    obtain rfl : k = 0 := by
      cases k with
      | zero => rfl
      | succ k => exact absurd rfl hb
    exact ⟨_, by simpa using hs, hw.minus hg⟩
  | single _ ih =>
    obtain ⟨w, hs, ht, hm, hd⟩ := ih
    exact ⟨w, hs, ht, hm, fun rest hr => .single (hd rest hr)⟩
  | more _ hs _ ih ih' =>
    obtain ⟨w, ⟨k, rfl⟩, hw⟩ := ih
    obtain ⟨w', ⟨j, rfl⟩, hw'⟩ := ih'
    obtain ⟨i, rfl⟩ := hs
    exact ⟨_, ⟨k, by simp⟩, hw.more hw' i j⟩

end Formula
