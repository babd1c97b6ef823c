import Formula.Rendering
import Formula.Proofs.Grammar.Leaf
import Formula.Text.Blank

/-!
Names that are plain words. Such a name ends before the first character that is not plain, so a name that is found, or
not found, at the front of a word stays so whatever else comes behind the word.
-/

namespace Formula

/-- No blank, no digit and no mark of a formula; letters of every script are plain. -/
def Text.isPlain (c : Char) : Bool :=
  !(isBlank c || c.isDigit || ['.', '(', ')', ',', '+', '-', '*', '/', '^'].contains c)

theorem Text.isBlank_of_isPlain {c : Char} (h : isPlain c) : isBlank c = false := by
  simp only [isPlain, Bool.not_eq_true', Bool.or_eq_false_iff] at h
  exact h.1.1

theorem Text.isPlain_of_isDigit {c : Char} (h : c.isDigit) : isPlain c = false := by
  simp [isPlain, h]

theorem Text.not_isPlain {x : Char} (h : x ∈ [' ', '(', ')', ',', '+', '-', '*', '/', '^']) : isPlain x = false := by
  have hall : [' ', '(', ')', ',', '+', '-', '*', '/', '^'].all (fun x => !isPlain x) := rfl
  simpa using List.all_eq_true.1 hall x h

theorem Text.not_isPlain_paren (rest : List Char) (x : Char) (hx : ('(' :: rest).head? = some x) : isPlain x = false := by
  obtain rfl := Option.some.inj hx
  exact not_isPlain (by simp)

theorem Text.ne_of_isPlain {c x : Char} (h : isPlain c) (hx : isPlain x = false) : c ≠ x := by
  rintro rfl
  rw [h] at hx
  cases hx

open Text

/-- What is not plain ends every name. -/
theorem prefix_of_plain {p w rest : List Char} (hp : ∀ c ∈ p, isPlain c)
    (hr : ∀ x, rest.head? = some x → isPlain x = false) (h : p <+: w ++ rest) : p <+: w := by
  rcases List.prefix_or_prefix_of_prefix h (List.prefix_append w rest) with h' | ⟨q, rfl⟩
  · exact h'
  · rw [List.prefix_append_right_inj] at h
    cases q with
    | nil => simp
    | cons x q =>
      obtain ⟨rest', rfl⟩ := h
      have hx := hr x rfl
      rw [hp x (by simp)] at hx
      cases hx

namespace Grammar

/-- The parser calls its variables by the names `n`, which are plain words. -/
structure Calls (g : Grammar) (n : Names) : Prop where
  names : g.names = [(n.independent, .independent)] ∨
    g.names = [(n.independent, .independent), (n.dependent, .dependent)]
  plain : ∀ p ∈ g.names, ∀ c ∈ p.1.toList, isPlain c

namespace Calls

variable {g : Grammar} {n : Names} {rest rest' : List Char}

theorem of_names (hg : g.names = [(n.independent, .independent), (n.dependent, .dependent)])
    (hn : ∀ slot, ∀ c ∈ (n.of slot).toList, isPlain c) : g.Calls n := by
  refine ⟨.inr hg, fun p hp => ?_⟩
  simp only [hg, List.mem_cons, List.not_mem_nil, or_false] at hp
  rcases hp with rfl | rfl
  · exact hn .independent
  · exact hn .dependent

theorem eq_of (hg : g.Calls n) {name : String} {slot : Slot} (h : (name, slot) ∈ g.names) : name = n.of slot := by
  rcases hg.names with hn | hn <;> rw [hn] at h <;> simp at h
  · obtain ⟨rfl, rfl⟩ := h
    rfl
  · rcases h with ⟨rfl, rfl⟩ | ⟨rfl, rfl⟩ <;> rfl

theorem nameAt?_eq_none (hg : g.Calls n) {here : List Char} (h : ∃ x, here.head? = some x ∧ isPlain x = false) :
    g.nameAt? here = none := by
  cases hn : g.nameAt? here with
  | none => rfl
  | some p =>
    obtain ⟨x, hx, hd⟩ := h
    obtain ⟨hm, hne, w, rfl⟩ := nameAt?_prefix hn
    cases hw : p.1.toList with
    | nil => exact absurd hw hne
    | cons y w' =>
      rw [hw, List.cons_append, List.head?_cons, Option.some.injEq] at hx
      subst hx
      exact absurd rfl (ne_of_isPlain (hg.plain p hm y (by simp [hw])) hd)

/-- No name begins with a mark. -/
theorem nameAt?_mark (hg : g.Calls n) {x : Char} (hx : x ∈ [' ', '(', ')', ',', '+', '-', '*', '/', '^']) :
    g.nameAt? (x :: rest) = none :=
  hg.nameAt?_eq_none ⟨x, rfl, not_isPlain hx⟩

theorem nameAt?_none (hg : g.Calls n) {w : List Char} (h : g.nameAt? (w ++ rest) = none)
    (hr : ∀ x, rest'.head? = some x → isPlain x = false) : g.nameAt? (w ++ rest') = none := by
  cases h' : g.nameAt? (w ++ rest') with
  | none => rfl
  | some p =>
    obtain ⟨hm, hne, hp⟩ := nameAt?_prefix h'
    have hw := prefix_of_plain (hg.plain p hm) hr hp
    have := List.find?_eq_none.1 h p hm
    simp [List.isPrefixOf_iff_prefix, hw.trans (List.prefix_append w rest)] at this
    simp [this] at hne

/-- The word of a call is hidden by a name, or not, whatever its argument is. -/
theorem nameAt?_call (hg : g.Calls n) {w : List Char} (h : g.nameAt? (w ++ '(' :: rest) = none) (rest' : List Char) :
    g.nameAt? (w ++ '(' :: rest') = none :=
  hg.nameAt?_none h (not_isPlain_paren rest')

-- A name that is sought earlier and matches now lies within this one, so it would have matched before.
theorem nameAt?_some (hg : g.Calls n) {name : String} {slot : Slot}
    (h : g.nameAt? (name.toList ++ rest) = some (name, slot)) (hr : ∀ x, rest'.head? = some x → isPlain x = false) :
    g.nameAt? (name.toList ++ rest') = some (name, slot) := by
  obtain ⟨hm, hne, -⟩ := nameAt?_prefix h
  obtain ⟨-, before, behind, hs, hb⟩ := List.find?_eq_some_iff_append.1 h
  refine List.find?_eq_some_iff_append.2
    ⟨by simpa [List.isPrefixOf_iff_prefix] using hne, before, behind, hs, fun p hp => ?_⟩
  have hold := hb p hp
  rw [Bool.not_eq_true', ← Bool.not_eq_true, Bool.and_eq_true, List.isPrefixOf_iff_prefix] at hold ⊢
  rintro ⟨hpne, hpre⟩
  have hw := prefix_of_plain (hg.plain p (by simp [hs, hp])) hr hpre
  exact hold ⟨hpne, hw.trans (List.prefix_append _ rest)⟩

end Calls

end Grammar

end Formula
