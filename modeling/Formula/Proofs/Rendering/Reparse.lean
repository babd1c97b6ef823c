import Formula.Proofs.Grammar.Acceptance
import Formula.Proofs.Rendering.Reading
import Formula.Proofs.Scalar.Unsigned

/-!
Printing a parsed sequence and parsing its text gives the sequence back.
-/

namespace Formula

variable {α : Type} [Scalar α] {g : Grammar} {n : Names}

theorem Grammar.Calls.ordinary (hg : g.Calls n) : g.Ordinary := by
  have hout : ∀ x ∈ [' ', '-', '('], Text.isPlain x = false := by simp [Text.not_isPlain]
  intro p hp x hx hm
  exact Text.ne_of_isPlain (hg.plain p hp x (List.mem_of_mem_head? hx)) (hout x hm) rfl

/-- A legible tree is read back from its text. -/
theorem Legible.reparse {t : Term α} (h : Legible g t) (hg : g.Calls n) (hd : t.depth ≤ g.maxDepth)
    (hl : ∀ v ∈ t.literals, Printable v) : g.parse (t.postorder.render n) = .ok t.postorder := by
  have htight := h.tight hg fun v hv => ⟨v, (hl v hv).1⟩
  rw [t.render_postorder, Grammar.parse_ok_iff_reads _ _ _ (by rw [htight.trim]; exact htight.ne_nil), htight.trim]
  obtain ⟨v, hv, ht, -⟩ := h.reads hg hl [] .nil
  rw [List.append_nil] at hv
  exact ⟨t, hg.ordinary.reads ⟨v, hv, ht .sum (Piece.precedence_pos n t)⟩, hd, rfl⟩

theorem Grammar.parse_render_of_printable {text : String} {s : Sequence α} (hg : g.Speaks n) (h : g.parse text = .ok s)
    (hs : s ≠ []) (hl : ∀ v ∈ s.literals, Printable v) : g.parse (s.render n) = .ok s := by
  obtain ⟨t, hr, hd, rfl⟩ := (reads_of_parse h).resolve_left hs
  exact hr.legible.reparse hg.calls hd fun v hv => hl v (by rwa [t.literals_postorder])

theorem Legible.literals {t : Term Float} (h : Legible g t) :
    ∀ v ∈ t.literals, ∃ digits places, v = Scalar.ofDigits digits places := by
  induction h with
  | leaf h =>
    intro v hv
    cases h with
    | name => simp [Term.literals] at hv
    | euler => exact ⟨2718281828459045, 15, List.mem_singleton.1 hv⟩
    | pi => exact ⟨3141592653589793, 15, List.mem_singleton.1 hv⟩
    | numeral => exact ⟨_, _, List.mem_singleton.1 hv⟩
  | call _ _ ih | neg _ ih => exact ih
  | log _ _ _ iht ihu | op _ _ iht ihu => exact fun v hv => (List.mem_append.1 hv).elim (iht v) (ihu v)

/-- Printing a parsed sequence and parsing again gives the sequence back. The numbers in it are finite and print as what
reads back. -/
theorem Grammar.parse_render {text : String} {s : Sequence Float} (hg : g.Speaks n) (h : g.parse text = .ok s)
    (hs : s ≠ []) (hinf : ∀ v ∈ s.literals, Scalar.isInfinite v = false)
    (hback : ∀ v ∈ s.literals, Scalar.isFinite v → Scalar.isNegative v = false → Scalar.ReadsBack v) :
    g.parse (s.render n) = .ok s := by
  refine parse_render_of_printable hg h hs fun v hv => ?_
  obtain ⟨t, hr, -, rfl⟩ := (reads_of_parse h).resolve_left hs
  obtain ⟨digits, places, hd⟩ := hr.legible.literals v (by rwa [← t.literals_postorder])
  obtain ⟨hnan, hneg⟩ := Scalar.ofDigits_unsigned digits places
  rw [← hd] at hnan hneg
  have hfin : Scalar.isFinite v := by simpa [Scalar.isInfinite, hnan] using hinf v hv
  exact ⟨hback v hv hfin hneg, hneg⟩

theorem Grammar.parse_render_product : (oneVariable "x").parse (α := Float)
    (Sequence.render (α := Float) {} [.number (Numeral.value ⟨['2'], []⟩), .neg, .var .independent, .op .mul]) =
      .ok [.number (Numeral.value ⟨['2'], []⟩), .neg, .var .independent, .op .mul] := by
  have hg : (oneVariable "x").Speaks {} := ⟨.inl rfl, by simp [oneVariable]⟩
  have h2 : Leaf (α := Float) (oneVariable "x") ['2', '*', 'x'] (.number (Numeral.value ⟨['2'], []⟩)) ['*', 'x'] :=
    .numeral (by decide) ⟨rfl, by simp, by simp, by simp, by simp, by simp⟩
  have hx : Leaf (α := Float) (oneVariable "x") ("x".toList ++ []) (.var .independent) [] := .name (by decide)
  have hm : Derives (oneVariable "x") true _ _ ['*', 'x'] :=
    .minus ⟨0, rfl⟩ (by decide) (by decide) (.leaf ⟨0, rfl⟩ (by decide) h2)
  have hv := Derives.more (o := .mul) (.single hm) ⟨0, rfl⟩ (.plain (.leaf ⟨0, rfl⟩ (by decide) hx))
  have hp : (oneVariable "x").parse (α := Float) "-2*x" =
      .ok [.number (Numeral.value ⟨['2'], []⟩), .neg, .var .independent, .op .mul] := by
    refine (parse_ok_iff_reads _ "-2*x" _ (by decide)).2
      ⟨.op .mul (.neg (.number (Numeral.value ⟨['2'], []⟩))) (.var .independent), ⟨_, hv, ?_⟩, by decide, rfl⟩
    exact .sum (.factor (.inl rfl) (.product (.sign (.power (.operand _)))) (.signed (.power (.operand _))))
  have hl : ∀ v ∈ Sequence.literals [.number (Numeral.value ⟨['2'], []⟩ : Float), .neg, .var .independent, .op .mul],
      v = Numeral.value ⟨['2'], []⟩ := by simp [Sequence.literals, Token.literals]
  refine parse_render hg hp (by simp) (fun v hv => ?_) fun v hv _ _ => ?_
  · rw [hl v hv]
    decide +kernel
  · rw [hl v hv]
    exact ⟨⟨['2'], []⟩, by simp, by decide +kernel, rfl⟩

end Formula
