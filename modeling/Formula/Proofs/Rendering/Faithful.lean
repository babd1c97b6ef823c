import Formula.Proofs.Rendering.Reparse
import Formula.Proofs.Rendering.Spelling

/-!
Printing keeps the meaning of every sequence that can be built. Where no name stands in the way of another, the text of
a well-formed sequence parses to what it spells, which has the same value everywhere and the same text again.
-/

namespace Formula

/-- Plain words that hide neither a function nor one another. -/
structure Names.Distinct (n : Names) : Prop where
  plain : ∀ slot, ∀ c ∈ (n.of slot).toList, Text.isPlain c
  func : ∀ slot (f : Func), ¬ (n.of slot).toList <+: f.name.toList
  log : ∀ slot, ¬ (n.of slot).toList <+: "log".toList
  dependent : ¬ n.independent.toList <+: n.dependent.toList

/-- The grammar of curves in the variables `n`. -/
def Names.grammar (n : Names) (maxDepth : Nat) : Grammar :=
  { Grammar.twoVariables n.independent n.dependent with maxDepth := maxDepth }

namespace Names.Distinct

variable {n : Names} {maxDepth : Nat}

theorem calls (hn : n.Distinct) : (n.grammar maxDepth).Calls n := .of_names rfl hn.plain

theorem isEmpty_of (hn : n.Distinct) (slot : Slot) : (n.of slot).isEmpty = false := by
  rw [String.isEmpty_eq_false_iff]
  intro he
  exact hn.log slot (by simp [he])

theorem nameAt?_of (hn : n.Distinct) (slot : Slot) :
    (n.grammar maxDepth).nameAt? (n.of slot).toList = some (n.of slot, slot) := by
  have hi := hn.isEmpty_of .independent
  have hd := hn.isEmpty_of .dependent
  have hp := hn.dependent
  simp only [Names.of] at hi hd
  rw [← List.isPrefixOf_iff_prefix, Bool.not_eq_true] at hp
  have hself : ∀ w : List Char, w.isPrefixOf w := fun w => List.isPrefixOf_iff_prefix.2 (List.prefix_refl w)
  cases slot <;> simp [Grammar.nameAt?, grammar, Grammar.twoVariables, Names.of, hi, hd, hp, hself]

theorem nameAt?_word (hn : n.Distinct) {w : List Char} (hw : ∀ slot, ¬ (n.of slot).toList <+: w) (rest : List Char) :
    (n.grammar maxDepth).nameAt? (w ++ '(' :: rest) = none := by
  cases h : (n.grammar maxDepth).nameAt? (w ++ '(' :: rest) with
  | none => rfl
  | some p =>
    obtain ⟨name, slot⟩ := p
    obtain ⟨hm, -, hp⟩ := Grammar.nameAt?_prefix h
    rw [hn.calls.eq_of hm] at hp
    exact absurd (prefix_of_plain (hn.plain slot) (Text.not_isPlain_paren rest) hp) (hw slot)

variable {α : Type} [Scalar α]

/-- Every tree can be read, provided that its numbers can. -/
theorem legible (hn : n.Distinct) {t : Term α} (hl : ∀ v ∈ t.literals, Scalar.ReadsBack v) :
    Legible (n.grammar maxDepth) t := by
  induction t with
  | number v =>
    obtain ⟨m, ⟨hne, hd⟩, -, rfl⟩ := hl v (by simp [Term.literals])
    exact .leaf (hn.calls.numeral hne hd .nil)
  | var slot =>
    have hs : (n.grammar maxDepth).nameAt? ((n.of slot).toList ++ []) = some (n.of slot, slot) := by
      rw [List.append_nil, hn.nameAt?_of]
    exact .leaf (.name hs)
  | call f arg ih => exact .call (hn.nameAt?_word (fun slot => hn.func slot f) []) (ih hl)
  | log base arg ihb iha =>
    simp only [Term.literals, List.mem_append] at hl
    exact .log (hn.nameAt?_word hn.log []) (ihb fun v hv => hl v (.inl hv))
      (iha fun v hv => hl v (.inr hv))
  | neg t ih => exact .neg (ih hl)
  | op o l r ihl ihr =>
    simp only [Term.literals, List.mem_append] at hl
    exact .op (ihl fun v hv => hl v (.inl hv)) (ihr fun v hv => hl v (.inr hv))

end Names.Distinct

theorem Scalar.readsBack_zero : Scalar.ReadsBack (0.0 : Float) :=
  ⟨⟨['0'], []⟩, by simp, by decide +kernel, by decide +kernel⟩

namespace Sequence

variable {n : Names} {s : Sequence Float}

theorem printable_spelled (hf : ∀ v ∈ s.literals, Scalar.isFinite v)
    (hback : ∀ v ∈ s.literals, Scalar.ReadsBack (Scalar.abs v)) : ∀ v ∈ s.spelled.literals, Printable v := by
  refine forall_literals_spelled ⟨Scalar.readsBack_zero, by decide +kernel⟩ fun v hv => ?_
  split
  · next hn => exact ⟨hback v hv, (Scalar.signed_of_isNegative (hf v hv) hn).isNegative_abs⟩
  · next hn =>
    rw [Bool.not_eq_true] at hn
    refine ⟨?_, hn⟩
    rw [← Scalar.abs_of_not_isNegative (hf v hv) hn]
    exact hback v hv

/-- The text of a well-formed sequence is read as the sequence spelled out, which computes the same and prints the same.
The numbers in it are finite, and the text of each magnitude reads back. -/
theorem parse_eq_spelled (hn : n.Distinct) (hw : WellFormed s) {maxDepth : Nat} (hd : s.depth ≤ maxDepth)
    (hf : ∀ v ∈ s.literals, Scalar.isFinite v) (hback : ∀ v ∈ s.literals, Scalar.ReadsBack (Scalar.abs v)) :
    (n.grammar maxDepth).parse (s.render n) = .ok s.spelled ∧ (∀ x, s.spelled.cell? x = s.cell? x) ∧
      s.spelled.render n = s.render n := by
  have hsigned : ∀ v ∈ s.literals, Scalar.isNegative v → Scalar.Signed v := fun v hv =>
    Scalar.signed_of_isNegative (hf v hv)
  have hrender := render_spelled (by decide +kernel) n hsigned
  refine ⟨?_, cell?_spelled hsigned, hrender⟩
  obtain ⟨t, ht⟩ := exists_postorder_spelled hw
  have hl : ∀ v ∈ t.literals, Printable v := by
    rw [← t.literals_postorder, ht]
    exact printable_spelled hf hback
  have hdepth : t.depth ≤ maxDepth := by rwa [← t.depth_postorder, ht, depth_spelled]
  rw [← hrender, ← ht]
  exact (hn.legible fun v hv => (hl v hv).1).reparse hn.calls hdepth hl

theorem parse_negative_base :
    (Names.grammar {} 1).parse (Sequence.render (α := Float) {} [.number (-2.0), .call .abs [], .op .pow]) =
      .ok [.number 2.0, .neg, .call .abs [.number 0.0], .op .pow] := by
  have hn : Names.Distinct {} := by
    refine ⟨?_, ?_, ?_, by decide⟩
    · rintro (_ | _) <;> simp [Names.of] <;> rfl
    · rintro (_ | _) f <;> cases f <;> decide
    · rintro (_ | _) <;> decide
  have hw : WellFormed ([.number (-2.0), .call .abs [], .op .pow] : Sequence Float) := by
    refine .intro (.inr rfl) ?_
    simp [Token.arguments, wellFormed_nil]
  have hl : ∀ v ∈ literals ([.number (-2.0), .call .abs [], .op .pow] : Sequence Float), v = -2.0 := by
    simp [literals, Token.literals]
  have hs : spelled ([.number (-2.0), .call .abs [], .op .pow] : Sequence Float) =
      [.number 2.0, .neg, .call .abs [.number 0.0], .op .pow] := by
    have hneg : Scalar.isNegative (-2.0 : Float) := by decide +kernel
    have habs : Scalar.abs (-2.0 : Float) = 2.0 := by decide +kernel
    simp [spelled, spell, Token.spell, operand, hneg, habs]
  rw [← hs]
  refine (parse_eq_spelled hn hw (by decide) (fun v hv => ?_) fun v hv => ?_).1
  · rw [hl v hv]
    decide +kernel
  · rw [hl v hv]
    exact ⟨⟨['2'], []⟩, by simp, by decide +kernel, by decide +kernel⟩

end Sequence

end Formula
