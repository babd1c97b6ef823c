import Formula.Proofs.Built

/-!
The flag of a cell is exact. In a well-formed sequence nothing that is computed is dropped, so the cell left at the end
is flagged exactly if the independent variable stands somewhere in the sequence; and a sequence in which it does not
stand is computed the same way wherever it is bound.
-/

namespace Formula

variable {α : Type}

/-! ## Where a variable stands -/

/-- The variable stands in the sequence or in an argument somewhere inside it. -/
def Sequence.Mentions (slot : Slot) (s : Sequence α) : Prop := ∃ u, Within u s ∧ .var slot ∈ u

def Token.Mentions (slot : Slot) (t : Token α) : Prop := t = .var slot ∨ ∃ a ∈ t.arguments, a.Mentions slot

namespace Sequence

variable {slot : Slot}

theorem not_mentions_nil : ¬ Mentions slot ([] : Sequence α) := by
  rintro ⟨u, hu, hm⟩
  cases hu with
  | self => simp at hm
  | argument ht => simp at ht

theorem mentions_cons {t : Token α} {ts : Sequence α} :
    Mentions slot (t :: ts) ↔ t.Mentions slot ∨ Mentions slot ts := by
  constructor
  · rintro ⟨u, hu, hm⟩
    cases hu with
    | self =>
      rcases List.mem_cons.1 hm with hm | hm
      · exact .inl (.inl hm.symm)
      · exact .inr ⟨ts, .self ts, hm⟩
    | argument ht ha hu =>
      rcases List.mem_cons.1 ht with rfl | ht
      · exact .inl (.inr ⟨_, ha, u, hu, hm⟩)
      · exact .inr ⟨u, .argument ht ha hu, hm⟩
  · rintro ((rfl | ⟨a, ha, u, hu, hm⟩) | ⟨u, hu, hm⟩)
    · exact ⟨_, .self _, List.mem_cons_self⟩
    · exact ⟨u, .argument List.mem_cons_self ha hu, hm⟩
    · cases hu with
      | self => exact ⟨_, .self _, List.mem_cons_of_mem _ hm⟩
      | argument ht ha hu => exact ⟨u, .argument (List.mem_cons_of_mem _ ht) ha hu, hm⟩

end Sequence

/-! ## Flags on a stack -/

/-- Some value on the stack was computed from the variable. -/
def Flagged (stack : List (Cell α)) : Prop := ∃ c ∈ stack, c.depends

theorem not_flagged_nil : ¬ Flagged ([] : List (Cell α)) := by
  rintro ⟨c, hc, -⟩
  cases hc

theorem flagged_cons {c : Cell α} {stack : List (Cell α)} : Flagged (c :: stack) ↔ c.depends ∨ Flagged stack := by
  simp [Flagged]

/-! ## Without the variable -/

variable [Scalar α]

-- On tokens and sequences together: the binding is read at the variable only.
theorem run_eq_of_not_mentions (x y : α) :
    (∀ t : Token α, ¬ t.Mentions .independent → ∀ stack, Token.run x stack t = Token.run y stack t) ∧
    ∀ s : Sequence α, ¬ s.Mentions .independent → ∀ stack, Sequence.run x stack s = Sequence.run y stack s := by
  have cell : ∀ a : Sequence α, (∀ stack, Sequence.run x stack a = Sequence.run y stack a) → a.cell x = a.cell y :=
    fun a ih => by rw [Sequence.cell, Sequence.cell, ih]
  refine Token.induct ?number ?var ?call ?log ?neg ?op ?nil ?cons
  case number | op => exact fun _ _ _ => rfl
  case neg => exact fun _ _ => rfl
  case var =>
    intro slot h stack
    cases slot with
    | independent => exact absurd (.inl rfl) h
    | dependent => rfl
  case call =>
    intro f arg ih h stack
    have harg : ¬ arg.Mentions .independent := fun hm => h (.inr ⟨arg, by simp [Token.arguments], hm⟩)
    rw [Token.run_call, Token.run_call, cell arg (ih harg)]
  case log =>
    intro base arg ihb iha h stack
    have hbase : ¬ base.Mentions .independent := fun hm => h (.inr ⟨base, by simp [Token.arguments], hm⟩)
    have harg : ¬ arg.Mentions .independent := fun hm => h (.inr ⟨arg, by simp [Token.arguments], hm⟩)
    rw [Token.run_log, Token.run_log, cell base (ihb hbase), cell arg (iha harg)]
  case nil => exact fun _ _ => rfl
  case cons =>
    intro t ts iht ihts h stack
    rw [Sequence.mentions_cons, not_or] at h
    simp only [Sequence.run, iht h.1, ihts h.2]

theorem Sequence.cell?_eq_of_not_mentions {s : Sequence α} (h : ¬ s.Mentions .independent) (x y : α) :
    s.cell? x = s.cell? y := by
  rw [cell?, cell?, cell, cell, (run_eq_of_not_mentions x y).2 s h]

/-! ## The flag -/

namespace Cell

variable {a b c l r : Cell α}

theorem depends_of_call {f : Func} (h : a.call f = .ok c) : c.depends = a.depends := by
  unfold call at h
  split at h
  · cases h
  · cases h
    rfl

theorem depends_of_log (h : log b a = .ok c) : c.depends = (b.depends || a.depends) := by
  unfold log at h
  split at h
  · cases h
  · cases h
    rfl

theorem depends_of_op {o : BinOp} (h : op o l r = .ok c) : c.depends = (l.depends || r.depends) := by
  unfold op at h
  split at h
  · cases h
  · cases h
    rfl

end Cell

namespace Sequence

/-- All that a run computes ends up in the one cell it leaves. -/
theorem depends_of_cell {s : Sequence α} (hs : WellFormed s) {x : α} {c : Cell α}
    (hrun : ∀ stack, run x [] s = .ok stack → (Flagged stack ↔ Flagged ([] : List (Cell α)) ∨ s.Mentions .independent))
    (h : s.cell x = .ok c) : c.depends ↔ s.Mentions .independent := by
  obtain ⟨stack, hr, hc⟩ := Except.exists_of_bind_eq_ok h
  rcases s with _ | ⟨t, ts⟩
  · cases hc
    simp [not_mentions_nil, Cell.constant]
  · obtain ⟨d, rfl⟩ := List.length_eq_one_iff.1 ((hs.runs x).2 stack hr (by simp))
    have hd : d = c := by simpa [settle] using hc
    simpa [hd, flagged_cons, not_flagged_nil] using hrun [d] hr

end Sequence

open Sequence in
-- By the tokens: what a token takes off the stack it computes its result from, so no flag on the stack gets lost.
theorem flagged_run (x : α) :
    (∀ t : Token α, (∀ a ∈ t.arguments, WellFormed a) → ∀ stack stack', Token.run x stack t = .ok stack' →
      (Flagged stack' ↔ Flagged stack ∨ t.Mentions .independent)) ∧
    ∀ s : Sequence α, (∀ t ∈ s, ∀ a ∈ t.arguments, WellFormed a) → ∀ stack stack', run x stack s = .ok stack' →
      (Flagged stack' ↔ Flagged stack ∨ s.Mentions .independent) := by
  have argument : ∀ a : Sequence α, WellFormed a → ((∀ t ∈ a, ∀ b ∈ t.arguments, WellFormed b) →
      ∀ stack stack', run x stack a = .ok stack' → (Flagged stack' ↔ Flagged stack ∨ a.Mentions .independent)) →
      ∀ c, a.cell x = .ok c → (c.depends ↔ a.Mentions .independent) := fun a ha ih c hc =>
    depends_of_cell ha (fun stack hr => ih (fun _ ht _ hb => ha.argument ht hb) [] stack hr) hc
  refine Token.induct ?number ?var ?call ?log ?neg ?op ?nil ?cons
  case number =>
    intro v _ stack stack' h
    cases h
    simp [flagged_cons, Cell.constant, Token.Mentions, Token.arguments]
  case var =>
    intro slot _ stack stack' h
    cases slot with
    | independent =>
      cases h
      simp [flagged_cons, Cell.bound, Token.Mentions]
    | dependent => cases h
  case call =>
    intro f arg ih ha stack stack' h
    rw [Token.run_call] at h
    obtain ⟨a, hcell, h⟩ := Except.exists_of_bind_eq_ok h
    obtain ⟨c, hc, h⟩ := Except.exists_of_bind_eq_ok h
    cases h
    have harg := argument arg (ha arg (by simp [Token.arguments])) ih a hcell
    simp [flagged_cons, Cell.depends_of_call hc, harg, Token.Mentions, Token.arguments, or_comm]
  case log =>
    intro base arg ihb iha ha stack stack' h
    rw [Token.run_log] at h
    obtain ⟨b, hb, h⟩ := Except.exists_of_bind_eq_ok h
    obtain ⟨a, hcell, h⟩ := Except.exists_of_bind_eq_ok h
    obtain ⟨c, hc, h⟩ := Except.exists_of_bind_eq_ok h
    cases h
    have hbase := argument base (ha base (by simp [Token.arguments])) ihb b hb
    have harg := argument arg (ha arg (by simp [Token.arguments])) iha a hcell
    simp [flagged_cons, Cell.depends_of_log hc, hbase, harg, Token.Mentions, Token.arguments, or_comm]
  case neg =>
    intro _ stack stack' h
    rcases stack with _ | ⟨c, below⟩
    · cases h
    · cases h
      simp [flagged_cons, Cell.neg, Token.Mentions, Token.arguments]
  case op =>
    intro o _ stack stack' h
    rcases stack with _ | ⟨r, _ | ⟨l, below⟩⟩
    · cases h
    · cases h
    · obtain ⟨c, hc, h⟩ := Except.exists_of_bind_eq_ok h
      cases h
      simp [flagged_cons, Cell.depends_of_op hc, Token.Mentions, Token.arguments, or_assoc, or_left_comm]
  case nil =>
    intro _ stack stack' h
    cases h
    simp [not_mentions_nil]
  case cons =>
    intro t ts iht ihts ha stack stack' h
    rw [run] at h
    obtain ⟨st, ht, hts⟩ := Except.exists_of_bind_eq_ok h
    rw [ihts (fun u hu => ha u (List.mem_cons_of_mem _ hu)) st stack' hts,
      iht (ha t List.mem_cons_self) stack st ht, mentions_cons, or_assoc]

namespace Sequence

theorem cell?_depends_iff {s : Sequence α} (hs : WellFormed s) {x : α} {c : Cell α} (h : s.cell? x = some c) :
    c.depends ↔ s.Mentions .independent :=
  depends_of_cell hs (fun stack hr => (flagged_run x).2 s (fun _ ht _ ha => hs.argument ht ha) [] stack hr)
    (cell?_eq_some.1 h)

/-- The flag tells whether the independent variable stands in the sequence, even where the value does not depend on it;
and without the variable, or with a cell anywhere that is not flagged, all bindings give the same. -/
theorem depends_exact {s : Sequence α} (hs : WellFormed s) (x : α) :
    (∀ c, s.cell? x = some c → (c.depends ↔ s.Mentions .independent)) ∧
    ((¬ s.Mentions .independent ∨ ∃ c, s.cell? x = some c ∧ c.depends = false) →
      ∀ y, s.cell? y = s.cell? x) := by
  refine ⟨fun c hc => cell?_depends_iff hs hc, fun h y => ?_⟩
  have hm : ¬ s.Mentions .independent := by
    rcases h with hm | ⟨c, hc, hd⟩
    · exact hm
    · rw [← cell?_depends_iff hs hc, hd]
      simp
  exact cell?_eq_of_not_mentions hm y x

theorem depends_times_zero :
    (cell? [.var .independent, .number 0.0, .op .mul] (2.0 : Float) = some ⟨2.0 * 0.0, true⟩ ∧
      Mentions .independent ([.var .independent, .number 0.0, .op .mul] : Sequence Float)) ∧
    cell? [.number 3.0, .call .abs [.number 2.0], .op .pow] (2.0 : Float) = some ⟨Float.pow 3.0 (Float.abs 2.0), false⟩ ∧
      cell? [.number 3.0, .call .abs [.number 2.0], .op .pow] (5.0 : Float) = some ⟨Float.pow 3.0 (Float.abs 2.0), false⟩ := by
  have hx : cell? [.var .independent, .number 0.0, .op .mul] (2.0 : Float) = some ⟨2.0 * 0.0, true⟩ := rfl
  have hk : cell? [.number 3.0, .call .abs [.number 2.0], .op .pow] (2.0 : Float) =
      some ⟨Float.pow 3.0 (Float.abs 2.0), false⟩ := rfl
  have hw : WellFormed ([.number 3.0, .call .abs [.number 2.0], .op .pow] : Sequence Float) :=
    (Term.op .pow (.number 3.0) (.call .abs (.number 2.0))).wellFormed_postorder
  refine ⟨⟨hx, ?_⟩, hk, ?_⟩
  · exact ((depends_exact (Term.op .mul (.var .independent) (.number 0.0)).wellFormed_postorder 2.0).1 _ hx).1 rfl
  · rw [(depends_exact hw 2.0).2 (.inr ⟨_, hk, rfl⟩) 5.0, hk]

end Sequence

end Formula
