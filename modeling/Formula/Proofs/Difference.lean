import Formula.Proofs.Equation
import Formula.Proofs.Roots

/-!
An equation is the difference of its sides, whichever way it is come by: reading both sides as one text, or joining what
is read of each; and fixing a variable before the difference is taken or after.
-/

namespace Formula

open Text

variable {α : Type}

namespace Sequence

variable [Scalar α]

theorem mapVars_operand (f : Slot → Token α) (s : Sequence α) : mapVars f (operand s) = operand (mapVars f s) := by
  cases s <;> simp [operand, mapVars, Token.mapVars]

/-- Replacing variables commutes with joining. -/
theorem mapVars_merge (f : Slot → Token α) (l r : Sequence α) (o : BinOp) :
    mapVars f (merge l r o) = merge (mapVars f l) (mapVars f r) o := by
  simp [merge, mapVars_append, mapVars_operand, mapVars, Token.mapVars]

theorem substitute_merge (l r : Sequence α) (o : BinOp) (v : α) :
    (merge l r o).substitute v = merge (l.substitute v) (r.substitute v) o := mapVars_merge _ l r o

end Sequence

/-- The blanks around the text are spaces. -/
def Text.Padded (cs : List Char) : Prop :=
  ∃ i j, cs = List.replicate i ' ' ++ trim cs ++ List.replicate j ' '

variable [Scalar α] {g : Grammar} {n : Names}

/-- A padded text that is read may stand between parens. -/
theorem Grammar.Reads.inset (hg : g.Calls n) {text : List Char} {t : Term α} (h : g.Reads true (trim text) t)
    (hp : Padded text) : ∃ v, Inset g true v text ∧ Groups .sum v t := by
  obtain ⟨v, hv, ht⟩ := h
  obtain ⟨w, ⟨k, hk⟩, hw⟩ := hv.excerpt hg
  obtain ⟨i, j, hij⟩ := hp
  have hs : Spaced (text ++ [')']) (w ++ (List.replicate j ' ' ++ [')'])) := by
    refine ⟨i + k, ?_⟩
    rw [hij, hk, List.replicate_add]
    simp only [List.append_assoc, List.append_nil]
  obtain ⟨m, hm, hin⟩ := hw.inset hs ⟨j, rfl⟩
  obtain rfl : text = m := List.append_cancel_right hm
  exact ⟨v, hin, ht⟩

namespace Equation

theorem padded_zero : Padded "0".toList := ⟨0, 0, by decide⟩

/-- A side that is accepted by itself is read as an operand, a blank one as zero. -/
theorem reads_side (hzero : (Numeral.value ⟨['0'], []⟩ : α) = 0.0) (hg : g.Calls n) {text : String} {s : Sequence α}
    (h : g.parse text = .ok s) (hp : trim text.toList ≠ [] → Padded text.toList) :
    Padded (side text).toList ∧
      ∃ t : Term α, g.Reads true (trim (side text).toList) t ∧ t.depth ≤ g.maxDepth ∧ t.postorder = s.operand := by
  by_cases ht : trim text.toList = []
  · have hs : s = [] := by
      simpa [Grammar.parse, Grammar.parseChars, ht] using h.symm
    have hside : side text = "0" := by simp [side, ht]
    rw [hside, hs]
    refine ⟨padded_zero, .number 0.0, ?_, Nat.zero_le _, rfl⟩
    have hleaf : Leaf g ("0".toList ++ []) (.number (Numeral.value ⟨['0'], []⟩ : α)) [] :=
      hg.numeral (m := ⟨['0'], []⟩) (by simp) (by simp) .nil
    rw [hzero] at hleaf
    exact ⟨_, .single (.plain (.leaf ⟨0, rfl⟩ (by decide) hleaf)), .sum (groups_product _)⟩
  · have hside : side text = text := by simp [side, ht]
    obtain ⟨t, hr, hd, rfl⟩ := (Grammar.parse_ok_iff_reads g text s ht).1 h
    rw [hside]
    exact ⟨hp ht, t, hr, hd, by simp [Sequence.operand, t.postorder_ne_nil]⟩

variable {lhs rhs : String}

/-- Two sides in parens are read as their difference. -/
theorem reads_difference (hg : g.Calls n) {l r : Term α} (hl : g.Reads true (trim (side lhs).toList) l)
    (hr : g.Reads true (trim (side rhs).toList) r) (hpl : Padded (side lhs).toList) (hpr : Padded (side rhs).toList) :
    g.Reads true (trim (differenceText lhs rhs).toList) (.op .sub l r) := by
  obtain ⟨v, hv, hgl⟩ := hl.inset hg hpl
  obtain ⟨w, hw, hgr⟩ := hr.inset hg hpr
  have hright := (hw.group hg hgr).derives [] .nil
  have hleft := (hv.group hg hgl).derives ('-' :: ('(' :: (side rhs).toList ++ [')'])) (.symbol .sub _)
  rw [trim_differenceText, toList_differenceText]
  refine ⟨[.operand l, .op .sub, .operand r], ?_,
    .summand (.inr rfl) (.sum (groups_product l)) (groups_product r)⟩
  simpa using Derives.more (o := .sub) (.single (.plain hleft)) ⟨0, rfl⟩ (.plain (by simpa using hright))

theorem parse_eq_merge (hzero : (Numeral.value ⟨['0'], []⟩ : α) = 0.0)
    (hg : (Grammar.twoVariables n.independent n.dependent).Calls n) {l r : Sequence α}
    (hl : (Grammar.twoVariables n.independent n.dependent).parse lhs = .ok l)
    (hr : (Grammar.twoVariables n.independent n.dependent).parse rhs = .ok r)
    (hpl : trim lhs.toList ≠ [] → Padded lhs.toList) (hpr : trim rhs.toList ≠ [] → Padded rhs.toList) :
    parse lhs rhs n.independent n.dependent = .ok ⟨l.merge r .sub⟩ := by
  obtain ⟨hpadl, t, ht, hdt, hpostl⟩ := reads_side hzero hg hl hpl
  obtain ⟨hpadr, u, hu, hdu, hpostr⟩ := reads_side hzero hg hr hpr
  have hread := reads_difference hg ht hu hpadl hpadr
  have hne : trim (differenceText lhs rhs).toList ≠ [] := by
    rw [trim_differenceText, toList_differenceText]
    simp
  refine parse_eq_ok.2 ((Grammar.parse_ok_iff_reads _ _ _ hne).2 ⟨_, hread, Nat.max_le.2 ⟨hdt, hdu⟩, ?_⟩)
  rw [Term.postorder, hpostl, hpostr, Sequence.merge]

/-- Where the first variable is fixed, the curve's points are those at which the sides meet. -/
theorem valuesAt_eq_map_x (finder : Finder α) (l r : Sequence α) (x lower upper : α) :
    valuesAt ⟨l.merge r .sub⟩ finder x lower upper =
      (({ finder with intervals := unitParts lower upper } : Finder α).intersections (l.substitute x) (r.substitute x)
        lower upper).map Point.x := by
  rw [Finder.map_x_intersections, ← Sequence.substitute_merge]
  rfl

/-- Two texts that are accepted as the sides of an equation make one, and it is their difference: in its sequence, where
the first variable is fixed, and in the values found for the second. -/
theorem parse_is_difference (hn : ∀ slot, ∀ c ∈ (n.of slot).toList, isPlain c) {l r : Sequence Float}
    (hl : (Grammar.twoVariables n.independent n.dependent).parse lhs = .ok l)
    (hr : (Grammar.twoVariables n.independent n.dependent).parse rhs = .ok r)
    (hpl : trim lhs.toList ≠ [] → Padded lhs.toList) (hpr : trim rhs.toList ≠ [] → Padded rhs.toList) :
    ∃ e : Equation Float, parse lhs rhs n.independent n.dependent = .ok e ∧ e.difference = l.merge r .sub ∧
      (∀ (a b : Sequence Float) (o : BinOp) (v : Float),
        (a.merge b o).substitute v = (a.substitute v).merge (b.substitute v) o) ∧
      ∀ (finder : Finder Float) (x lower upper : Float), e.valuesAt finder x lower upper =
        (({ finder with intervals := unitParts lower upper } : Finder Float).intersections (l.substitute x)
          (r.substitute x) lower upper).map Point.x :=
  ⟨⟨l.merge r .sub⟩, parse_eq_merge (by decide +kernel) (.of_names rfl hn) hl hr hpl hpr, rfl,
    Sequence.substitute_merge, fun finder x lower upper => valuesAt_eq_map_x finder l r x lower upper⟩

/-- A side with spaces around it against a blank one. -/
theorem parse_is_difference_blank : ∃ e : Equation Float, parse " y " "" = .ok e ∧
    e.difference = [.var .dependent, .number 0.0, .op .sub] ∧
    e.valuesAt .standard 1.0 (-2.0) 2.0 =
      (({ Finder.standard with intervals := unitParts (-2.0) 2.0 } : Finder Float).intersections [.var .independent] []
        (-2.0) 2.0).map Point.x := by
  have hy : Leaf (α := Float) (Grammar.twoVariables "x" "y") ("y".toList ++ []) (.var .dependent) [] := .name (by decide)
  have hl : (Grammar.twoVariables "x" "y").parse (α := Float) " y " = .ok [.var .dependent] :=
    (Grammar.parse_ok_iff_reads _ " y " _ (by decide)).2 ⟨.var .dependent,
      ⟨_, .single (.plain (.leaf ⟨0, rfl⟩ (by decide) hy)), .sum (groups_product _)⟩, by decide, rfl⟩
  have hr : (Grammar.twoVariables "x" "y").parse (α := Float) "" = .ok [] := rfl
  obtain ⟨e, he, hd, -, hv⟩ := parse_is_difference (n := {}) plain_default hl hr
    (fun _ => ⟨1, 1, by decide⟩) (fun h => absurd rfl h)
  exact ⟨e, he, hd, hv .standard 1.0 (-2.0) 2.0⟩

end Equation

end Formula
