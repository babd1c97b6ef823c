import Formula.Grammar.Parse
import Formula.Proofs.Grammar.Nesting
import Formula.Proofs.Grammar.Reading
import Formula.Proofs.Grammar.Standing
import Formula.Scalar.Double

/-!
The parser accepts its grammar and answers the postorder of the tree.
-/

namespace Formula

variable {α : Type}

theorem Grammar.complete_eq_ok {s s' : Sequence α} {rest : Cursor} :
    complete s rest = .ok s' ↔ rest.unread = [] ∧ s = s' := by
  cases hr : rest.unread with
  | nil => simp [complete, Cursor.peek?, hr]
  | cons x unread =>
    simp only [complete, Cursor.peek?, hr, List.head?_cons]
    split <;> simp_all

variable [Scalar α] {g : Grammar} {text : List Char} {t : Term α}

theorem Machine.run_of_reads (h : g.Reads true text t) (hd : t.depth ≤ g.maxDepth) :
    ∃ rest, run g (.start (.ofList text)) = .ok (t.postorder, rest) ∧ rest.unread = [] := by
  obtain ⟨v, hv, ht⟩ := h
  obtain ⟨d, hr, hs⟩ := steps_of_derives hv (.ofList text) {} [] false rfl (by simp) fun u hu =>
    Nat.le_trans (ht.depth_le u hu) hd
  have he : d.atEnd := by rw [Cursor.atEnd, hr]; rfl
  have ho : (Level.feed {} v).opened = 0 := Level.opened_feed {} v
  have hstep : step g ⟨d, Level.feed {} v, [], .operator⟩ = .done t.postorder d := by
    simp [step, he, ho, leave, Level.finish_feed ht]
  exact ⟨d, (run_of_steps hs).trans (run_of_done hstep), hr⟩

namespace Grammar

theorem parse_eq_ok {text : String} {s : Sequence α} (h : Text.trim text.toList ≠ []) :
    g.parse text = .ok s ↔
      ∃ rest, Machine.run g (.start (.ofList (Text.trim text.toList))) = .ok (s, rest) ∧ rest.unread = [] := by
  have he : (Text.trim text.toList).isEmpty = false := by simpa using h
  simp only [parse, parseChars, he, Bool.false_eq_true, if_false]
  cases hr : Machine.run (α := α) g (.start (.ofList (Text.trim text.toList))) with
  | error e => simp [bind, Except.bind]
  | ok p =>
    obtain ⟨s', rest⟩ := p
    simp only [bind, Except.bind, complete_eq_ok, Except.ok.injEq, Prod.mk.injEq]
    constructor
    · rintro ⟨hu, rfl⟩
      exact ⟨rest, ⟨rfl, rfl⟩, hu⟩
    · rintro ⟨_, ⟨rfl, rfl⟩, hu⟩
      exact ⟨hu, rfl⟩

/-- No name begins with a character that also stands before operands. -/
def Ordinary (g : Grammar) : Prop := ∀ p ∈ g.names, ∀ x, p.1.toList.head? = some x → x ∉ [' ', '-', '(']

theorem Ordinary.head {here : List Char} {p : String × Slot} (hg : g.Ordinary) (h : g.nameAt? here = some p) {x : Char}
    (hx : here.head? = some x) : x ∉ [' ', '-', '('] := by
  obtain ⟨hm, hne, w, hw⟩ := nameAt?_prefix h
  refine hg p hm x ?_
  rw [← hw, List.head?_append, List.head?_eq_some_head hne, Option.some_or] at hx
  rwa [List.head?_eq_some_head hne]

theorem Ordinary.nameAt?_eq_none {here : List Char} (hg : g.Ordinary) {x : Char} (hx : x ∈ [' ', '-', '(']) :
    g.nameAt? (x :: here) = none := by
  cases h : g.nameAt? (x :: here) with
  | none => rfl
  | some p => exact absurd hx (hg.head h rfl)

theorem Ordinary.leaf_head {here rest : List Char} {t : Term α} (hg : g.Ordinary) (h : Leaf g here t rest) :
    here.head? ≠ some ' ' := by
  cases h with
  | name hn => exact fun hx => hg.head hn hx (by simp)
  | euler | pi => simp
  | numeral _ hl =>
    obtain ⟨x, hx, hd⟩ := hl.head
    rw [hx]
    rintro ⟨⟩
    simp at hd

/-- For ordinary names it does not matter in which order the alternatives are tried. -/
theorem Ordinary.derives {o o' : Bool} {p : Phrase α} {a b : List Char} (hg : g.Ordinary) (h : Derives g o p a b) :
    Derives g o' p a b := by
  induction h with
  | leaf hs _ hl => exact .leaf hs (fun _ => hg.leaf_head hl) hl
  | call hs hn _ ht hc ih => exact .call hs hn ih ht hc
  | log hs hn _ ht hm _ hu hc iht ihu => exact .log hs hn iht ht hm ihu hu hc
  | group hs _ _ ht hc ih => exact .group hs (fun _ => hg.nameAt?_eq_none (by simp)) ih ht hc
  | plain _ ih => exact .plain ih
  | minus hs _ hb _ ih => exact .minus hs (fun _ => hg.nameAt?_eq_none (by simp)) hb ih
  | single _ ih => exact .single ih
  | more _ hs _ ihl ihr => exact .more ihl hs ihr

theorem Ordinary.reads {o o' : Bool} (hg : g.Ordinary) (h : g.Reads o text t) : g.Reads o' text t := by
  obtain ⟨v, hv, ht⟩ := h
  exact ⟨v, hg.derives hv, ht⟩

theorem parse_ok_iff_reads (g : Grammar) (text : String) (s : Sequence α) (h : Text.trim text.toList ≠ []) :
    g.parse text = .ok s ↔
      ∃ t : Term α, g.Reads true (Text.trim text.toList) t ∧ t.depth ≤ g.maxDepth ∧ t.postorder = s := by
  rw [parse_eq_ok h]
  constructor
  · rintro ⟨rest, hr, hu⟩
    obtain ⟨t, ht, rfl⟩ := Machine.reads_of_run hr hu
    exact ⟨t, ht, by rw [← Term.depth_postorder]; exact Machine.depth_of_run hr, rfl⟩
  · rintro ⟨t, ht, hd, rfl⟩
    exact Machine.run_of_reads ht hd

theorem reads_of_parse {text : String} {s : Sequence α} (h : g.parse text = .ok s) :
    s = [] ∨ ∃ t : Term α, g.Reads true (Text.trim text.toList) t ∧ t.depth ≤ g.maxDepth ∧ t.postorder = s := by
  by_cases ht : Text.trim text.toList = []
  · have hs : g.parse (α := α) text = .ok [] := by simp [parse, parseChars, ht]
    rw [hs] at h
    exact .inl (Except.ok.inj h).symm
  · exact .inr ((parse_ok_iff_reads g text s ht).1 h)

/-- The parser accepts the grammar in which names go first; where no name begins with a space, a sign or a paren, the
order does not matter. -/
theorem parse_eq_ok_iff (g : Grammar) (text : String) (s : Sequence α) (h : Text.trim text.toList ≠ []) :
    (g.parse text = .ok s ↔
      ∃ t : Term α, g.Reads true (Text.trim text.toList) t ∧ t.depth ≤ g.maxDepth ∧ t.postorder = s) ∧
    (g.Ordinary → (g.parse text = .ok s ↔
      ∃ t : Term α, g.Reads false (Text.trim text.toList) t ∧ t.depth ≤ g.maxDepth ∧ t.postorder = s)) := by
  have hp := parse_ok_iff_reads g text s h
  refine ⟨hp, fun hg => hp.trans ⟨?_, ?_⟩⟩
  · rintro ⟨t, ht, hd⟩
    exact ⟨t, hg.reads ht, hd⟩
  · rintro ⟨t, ht, hd⟩
    exact ⟨t, hg.reads ht, hd⟩

theorem ordinary_x : (oneVariable "x").Ordinary := by
  intro p hp x hx
  rw [List.mem_singleton.1 hp] at hx
  cases hx
  decide

theorem parse_negated_x : Text.trim "-x".toList ≠ [] ∧ (oneVariable "x").Ordinary ∧
    (oneVariable "x").parse (α := Float) "-x" = .ok [.var .independent, .neg] := by
  refine ⟨by decide, ordinary_x, ?_⟩
  refine ((parse_eq_ok_iff (oneVariable "x") "-x" _ (by decide)).2 ordinary_x).2
    ⟨.neg (.var .independent), ?_, by decide, rfl⟩
  have hx : Leaf (α := Float) (oneVariable "x") ("x".toList ++ []) (.var .independent) [] := .name (by decide)
  exact ⟨_, .single (.minus ⟨0, rfl⟩ (by decide) (by decide) (.leaf ⟨0, rfl⟩ (by decide) hx)),
    .sum (.product (.sign (.power (.operand _))))⟩

-- The sign is the variable's name here, so no operator follows what is read as an operand.
theorem parse_sign_name : ¬ ∀ (g : Grammar) (text : String) (s : Sequence Float), Text.trim text.toList ≠ [] →
    (g.parse text = .ok s ↔
      ∃ t : Term Float, g.Reads false (Text.trim text.toList) t ∧ t.depth ≤ g.maxDepth ∧ t.postorder = s) := by
  intro h
  have hl : Numeral.Longest ⟨['3'], []⟩ ['3'] [] :=
    ⟨rfl, by simp, by simp, by simp, by simp, by simp⟩
  have hr : (oneVariable "-").Reads (α := Float) false ['-', '3'] (.neg (.number (Numeral.value ⟨['3'], []⟩))) :=
    ⟨_, .single (.minus ⟨0, rfl⟩ (by simp) (by decide) (.leaf ⟨0, rfl⟩ (by simp) (.numeral (by decide) hl))),
      .sum (.product (.sign (.power (.operand _))))⟩
  have hp := (h (oneVariable "-") "-3" _ (by decide)).2 ⟨_, hr, by decide, rfl⟩
  obtain ⟨rest, hrun, -⟩ := (parse_eq_ok (by decide)).1 hp
  have hname : Machine.step (α := Float) (oneVariable "-") (.start (.ofList ['-', '3'])) =
    .next ⟨⟨['-'], ['3']⟩, { output := [.var .independent] }, [], .operator⟩ := rfl
  rw [show Text.trim "-3".toList = ['-', '3'] by decide, Machine.run_of_steps (.of_step hname), Machine.run] at hrun
  cases hrun

end Grammar

end Formula
