import Formula.Equation
import Formula.Proofs.Grammar.Acceptance
import Formula.Proofs.Grammar.Context

/-!
Equations against their sides. The sides are put in parens and read as one text, which keeps them apart only as long as
neither closes a paren that it has not opened.
-/

namespace Formula

open Text

variable {α : Type} [Scalar α] {g : Grammar} {n : Names} {ordered : Bool}

/-! ## Parens in a text that is read -/

theorem Derives.matched (hg : g.Calls n) {p : Phrase α} {a : List Char} (h : Derives g ordered p a []) : Matched a := by
  obtain ⟨w, ⟨k, rfl⟩, hw⟩ := h.excerpt hg
  simpa using (Matched.spaces k).append hw.matched

theorem Grammar.matched_of_parse (hg : g.Calls n) {text : String} {s : Sequence α} (h : g.parse text = .ok s) :
    Matched text.toList := by
  rw [Matched, ← unclosed_trim]
  by_cases ht : trim text.toList = []
  · rw [ht]
    rfl
  · obtain ⟨t, ⟨v, hv, -⟩, -⟩ := (parse_ok_iff_reads g text s ht).1 h
    exact hv.matched hg

/-- What is read from a paren on ends where the paren closes. -/
theorem Derives.unit_group (hg : g.Calls n) {u : List (Item α)} {m rest d : List Char}
    (h : Derives g ordered (.unit u) ('(' :: m ++ ')' :: rest) d) (hm : Matched m) :
    d = rest ∧ ∃ t, u = [.operand t] ∧ g.Reads ordered (trim m) t := by
  have hword : ∀ {w b : List Char}, Word w → ¬ Spaced ('(' :: m ++ ')' :: rest) (w ++ b) := by
    rintro w b ⟨hne, hw⟩ hs
    obtain ⟨x, w, rfl⟩ := List.exists_cons_of_ne_nil hne
    obtain ⟨rfl, -⟩ := List.cons.inj (hs.eq_of_head (by decide))
    exact (hw '(' (by simp)).2.1 rfl
  cases h with
  | minus hs => cases (List.cons.inj (hs.eq_of_head (by decide))).1
  | @plain _ _ t h =>
    cases h with
    | leaf hs _ hl =>
      obtain ⟨w, rfl, hw, -⟩ := hl.word hg
      exact absurd hs (hword hw)
    | @call _ _ _ _ f _ _ hs => exact absurd hs (hword f.word)
    | log hs => exact absurd hs (hword word_log)
    | group hs _ hv ht hc =>
      obtain ⟨-, htail⟩ := List.cons.inj (hs.eq_of_head (by decide))
      obtain ⟨w, hb, hw⟩ := hv.excerpt hg
      obtain ⟨m', rfl, hm'⟩ := hw.inset hb hc
      -- both `m'` and `m` end at the first paren that closes more than they open
      obtain ⟨rfl, rfl⟩ := eq_of_unclosed hm'.matched hm htail
      exact ⟨rfl, t, rfl, _, hm'.whole, ht⟩

/-! ## Sides -/

namespace Equation

theorem toList_differenceText (lhs rhs : String) : (differenceText lhs rhs).toList =
    '(' :: (side lhs).toList ++ ')' :: '-' :: ('(' :: (side rhs).toList ++ ')' :: []) := by
  simp [differenceText]

theorem trim_differenceText (lhs rhs : String) :
    trim (differenceText lhs rhs).toList = (differenceText lhs rhs).toList := by
  refine Tight.trim ?_
  rw [toList_differenceText]
  simpa using tight_enclosed ((side lhs).toList ++ ')' :: '-' :: '(' :: (side rhs).toList)

theorem trim_side_ne_nil (text : String) : trim (side text).toList ≠ [] := by
  rw [side]
  split
  · decide
  · next h => simpa using h

omit [Scalar α] in
theorem groups_product (t : Term α) : Groups .product [.operand t] t := .product (.signed (.power (.operand t)))

/-- Where the sides' own parens match, the text of the difference is read as the difference of the sides. -/
theorem reads_sides (hg : g.Calls n) {l r : List Char} (hl : Matched l) (hr : Matched r) {v : List (Item α)}
    (h : Derives g ordered (.expression v) ('(' :: l ++ ')' :: '-' :: ('(' :: r ++ ')' :: [])) []) :
    ∃ t u, v = [.operand t, .op .sub, .operand u] ∧ g.Reads ordered (trim l) t ∧ g.Reads ordered (trim r) u := by
  have hnone : ∀ {o : BinOp} {c : List Char}, ¬ Spaced [] (o.symbol :: c) := by
    rintro o c ⟨k, hk⟩
    simp at hk
  obtain ⟨v₁, b, h₁, hrest⟩ := h.first
  obtain ⟨rfl, t, rfl, ht⟩ := h₁.unit_group hg hl
  rcases hrest with ⟨hb, -⟩ | ⟨o, c, w, hs, hw, rfl⟩
  · cases hb
  obtain ⟨rfl, rfl⟩ : o = .sub ∧ c = '(' :: r ++ ')' :: [] := by
    obtain ⟨ho, rfl⟩ := List.cons.inj (hs.eq_of_head (by decide))
    refine ⟨?_, rfl⟩
    cases o with
    | sub => rfl
    | add | mul | div | pow => cases ho
  obtain ⟨v₂, d, h₂, hrest⟩ := hw.first
  obtain ⟨rfl, u, rfl, hu⟩ := h₂.unit_group hg hr
  rcases hrest with ⟨-, rfl⟩ | ⟨o, c, w, hs, -⟩
  · exact ⟨t, u, rfl, ht, hu⟩
  · exact absurd hs hnone

/-- In a text that is read, sides that close no paren but their own close all of them. -/
theorem matched_sides {l r : List Char} (h : Matched ('(' :: l ++ ')' :: '-' :: ('(' :: r ++ ')' :: [])))
    (hl : (unclosed 0 l).isSome) (hr : (unclosed 0 r).isSome) : Matched l ∧ Matched r := by
  obtain ⟨i, hi⟩ := Option.isSome_iff_exists.1 hl
  obtain ⟨j, hj⟩ := Option.isSome_iff_exists.1 hr
  -- with `i` left open by the first side and `j` by the second, `j + i` are open at the end
  have hi' := unclosed_add hi 1
  have hj' := unclosed_add hj (i + 1)
  rw [Nat.zero_add] at hi' hj'
  have hsum : j + i = 0 := by
    simpa [Matched, unclosed, nesting, unclosed_append, hi', hj'] using h
  obtain ⟨rfl, rfl⟩ : j = 0 ∧ i = 0 := by omega
  exact ⟨hi, hj⟩

theorem isSome_unclosed_side {text : String} (h : (unclosed 0 text.toList).isSome) :
    (unclosed 0 (side text).toList).isSome := by
  rw [side]
  split
  · rfl
  · exact h

theorem parse_of_parse_side {text : String} {s : Sequence α} (h : g.parse (side text) = .ok s) :
    ∃ s' : Sequence α, g.parse text = .ok s' := by
  rw [side] at h
  split at h
  · next ht => exact ⟨[], by simp [Grammar.parse, Grammar.parseChars, List.isEmpty_iff.1 ht]⟩
  · exact ⟨s, h⟩

theorem parse_side_of_reads {text : String} {t : Term α} (h : g.Reads true (trim (side text).toList) t)
    (hd : t.depth ≤ g.maxDepth) : g.parse (side text) = .ok t.postorder :=
  (Grammar.parse_ok_iff_reads g (side text) _ (trim_side_ne_nil text)).2 ⟨t, h, hd, rfl⟩

theorem parse_eq_ok {lhs rhs independent dependent : String} {e : Equation α} :
    parse lhs rhs independent dependent = .ok e ↔
      (Grammar.twoVariables independent dependent).parse (differenceText lhs rhs) = .ok e.difference := by
  rw [parse]
  cases (Grammar.twoVariables independent dependent).parse (α := α) (differenceText lhs rhs) with
  | error err => simp [Except.map]
  | ok s =>
    obtain ⟨d⟩ := e
    simp [Except.map]

variable {lhs rhs : String} {e : Equation α}

/-- The difference of two sides whose own parens match. -/
theorem difference_eq (hg : (Grammar.twoVariables n.independent n.dependent).Calls n)
    (h : parse lhs rhs n.independent n.dependent = .ok e) (hl : (unclosed 0 lhs.toList).isSome)
    (hr : (unclosed 0 rhs.toList).isSome) :
    ∃ l r : Sequence α, (Grammar.twoVariables n.independent n.dependent).parse (side lhs) = .ok l ∧
      (Grammar.twoVariables n.independent n.dependent).parse (side rhs) = .ok r ∧
      e.difference = l ++ r ++ [.op .sub] := by
  have hne : trim (differenceText lhs rhs).toList ≠ [] := by
    rw [trim_differenceText, toList_differenceText]
    simp
  obtain ⟨t, ⟨v, hv, ht⟩, hd, he⟩ := (Grammar.parse_ok_iff_reads _ _ _ hne).1 (parse_eq_ok.1 h)
  rw [trim_differenceText, toList_differenceText] at hv
  obtain ⟨hml, hmr⟩ := matched_sides (hv.matched hg) (isSome_unclosed_side hl) (isSome_unclosed_side hr)
  obtain ⟨l, r, rfl, hreadl, hreadr⟩ := reads_sides hg hml hmr hv
  have hgroups : Groups .sum [.operand l, .op .sub, .operand r] (.op .sub l r) :=
    .summand (.inr rfl) (.sum (groups_product l)) (groups_product r)
  have hpost : e.difference = (Term.op .sub l r).postorder := by
    rw [← he, ← Level.finish_feed ht, Level.finish_feed hgroups]
  have hdepth : (Term.op .sub l r).depth ≤ (Grammar.twoVariables n.independent n.dependent).maxDepth := by
    rw [← Term.depth_postorder, ← hpost, ← he, Term.depth_postorder]
    exact hd
  rw [Term.depth, Nat.max_le] at hdepth
  exact ⟨l.postorder, r.postorder, parse_side_of_reads hreadl hdepth.1, parse_side_of_reads hreadr hdepth.2, hpost⟩

/-- The sides of an equation that is accepted are accepted by themselves exactly if neither closes a paren that it has
not opened, and then the equation is their difference. -/
theorem sides_accepted_iff (hn : ∀ slot, ∀ c ∈ (n.of slot).toList, isPlain c)
    (h : parse lhs rhs n.independent n.dependent = .ok e) :
    (((∃ l : Sequence α, (Grammar.twoVariables n.independent n.dependent).parse lhs = .ok l) ∧
        ∃ r : Sequence α, (Grammar.twoVariables n.independent n.dependent).parse rhs = .ok r) ↔
      (unclosed 0 lhs.toList).isSome ∧ (unclosed 0 rhs.toList).isSome) ∧
    ((unclosed 0 lhs.toList).isSome ∧ (unclosed 0 rhs.toList).isSome →
      ∃ l r : Sequence α, (Grammar.twoVariables n.independent n.dependent).parse (side lhs) = .ok l ∧
        (Grammar.twoVariables n.independent n.dependent).parse (side rhs) = .ok r ∧
        e.difference = l ++ r ++ [.op .sub]) := by
  have hg : (Grammar.twoVariables n.independent n.dependent).Calls n := .of_names rfl hn
  refine ⟨⟨?_, ?_⟩, fun ⟨hl, hr⟩ => difference_eq hg h hl hr⟩
  · rintro ⟨⟨l, hl⟩, r, hr⟩
    have hl : unclosed 0 lhs.toList = some 0 := Grammar.matched_of_parse hg hl
    have hr : unclosed 0 rhs.toList = some 0 := Grammar.matched_of_parse hg hr
    simp [hl, hr]
  · rintro ⟨hl, hr⟩
    obtain ⟨l, r, hpl, hpr, -⟩ := difference_eq hg h hl hr
    exact ⟨parse_of_parse_side hpl, parse_of_parse_side hpr⟩

/-! ## Sides that do not stand alone -/

theorem plain_default (slot : Slot) : ∀ c ∈ (Names.of {} slot).toList, isPlain c := by
  cases slot <;> simp [Names.of] <;> rfl

theorem unit_of_leaf (hg : g.Calls n) {here rest : List Char} {t : Term α} (h : Leaf g here t (')' :: rest)) :
    Derives g true (.unit [.operand t]) ('(' :: here) rest := by
  obtain ⟨w, rfl, hw, -⟩ := h.word hg
  have hv : Derives g true (.expression [.operand t]) (w ++ ')' :: rest) (')' :: rest) :=
    .single (.plain (.leaf ⟨0, rfl⟩ (fun _ => hw.tight.head_ne_space _) h))
  exact .plain (.group ⟨0, rfl⟩ (fun _ => hg.nameAt?_mark (by simp)) hv (.sum (groups_product t)) ⟨0, rfl⟩)

theorem parse_blank_side : ∃ e : Equation Float, parse "y" "" = .ok e ∧
    ∃ l r : Sequence Float, (Grammar.twoVariables "x" "y").parse "y" = .ok l ∧
      (Grammar.twoVariables "x" "y").parse "0" = .ok r ∧ e.difference = l ++ r ++ [.op .sub] := by
  have hg : (Grammar.twoVariables "x" "y").Calls {} := .of_names rfl plain_default
  have hy : Leaf (α := Float) (Grammar.twoVariables "x" "y") ("y".toList ++ [')', '-', '(', '0', ')'])
    (.var .dependent) [')', '-', '(', '0', ')'] := .name (by decide)
  have h0 : Leaf (α := Float) (Grammar.twoVariables "x" "y") ['0', ')'] (.number (Numeral.value ⟨['0'], []⟩)) [')'] :=
    .numeral (by decide) ⟨rfl, by simp, by simp, by simp, by simp, by simp⟩
  have hd := Derives.more (o := .sub) (.single (unit_of_leaf hg hy)) ⟨0, rfl⟩ (unit_of_leaf hg h0)
  have ht := Groups.summand (.inr rfl) (.sum (groups_product (.var .dependent)))
    (groups_product (.number (Numeral.value ⟨['0'], []⟩ : Float)))
  have hp : parse (α := Float) "y" "" = .ok ⟨(Term.op .sub (.var .dependent)
      (.number (Numeral.value ⟨['0'], []⟩))).postorder⟩ :=
    parse_eq_ok.2 ((Grammar.parse_ok_iff_reads _ _ _ (by decide)).2 ⟨_, ⟨_, hd, ht⟩, by decide, rfl⟩)
  exact ⟨_, hp, (sides_accepted_iff (n := {}) plain_default hp).2 (by decide)⟩

/-- A side that closes the paren around it: what is left of it pairs up with the other side's. -/
theorem parse_unopened : (∃ e : Equation Float, parse "x)+(y" "1" = .ok e) ∧
    ∀ l : Sequence Float, (Grammar.twoVariables "x" "y").parse "x)+(y" ≠ .ok l := by
  have hg : (Grammar.twoVariables "x" "y").Calls {} := .of_names rfl plain_default
  have hx : Leaf (α := Float) (Grammar.twoVariables "x" "y")
    ("x".toList ++ [')', '+', '(', 'y', ')', '-', '(', '1', ')']) (.var .independent)
    [')', '+', '(', 'y', ')', '-', '(', '1', ')'] := .name (by decide)
  have hy : Leaf (α := Float) (Grammar.twoVariables "x" "y") ("y".toList ++ [')', '-', '(', '1', ')'])
    (.var .dependent) [')', '-', '(', '1', ')'] := .name (by decide)
  have h1 : Leaf (α := Float) (Grammar.twoVariables "x" "y") ['1', ')'] (.number (Numeral.value ⟨['1'], []⟩)) [')'] :=
    .numeral (by decide) ⟨rfl, by simp, by simp, by simp, by simp, by simp⟩
  have hsum := Derives.more (o := .add) (.single (unit_of_leaf hg hx)) ⟨0, rfl⟩ (unit_of_leaf hg hy)
  have hd := Derives.more (o := .sub) hsum ⟨0, rfl⟩ (unit_of_leaf hg h1)
  have ht := Groups.summand (.inr rfl) (.summand (.inl rfl) (.sum (groups_product (.var .independent)))
    (groups_product (.var .dependent))) (groups_product (.number (Numeral.value ⟨['1'], []⟩ : Float)))
  have hp := (Grammar.parse_ok_iff_reads (Grammar.twoVariables "x" "y") (differenceText "x)+(y" "1") _ (by decide)).2
    ⟨_, ⟨_, hd, ht⟩, by decide, rfl⟩
  refine ⟨⟨⟨_⟩, parse_eq_ok.2 hp⟩, fun l hl => ?_⟩
  exact absurd (Grammar.matched_of_parse hg hl) (by decide)

end Equation

end Formula
