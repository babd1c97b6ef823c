import Formula.Proofs.Environment

/-!
Joining two sequences is applying the operator to their values. A closed sequence leaves its value on top of whatever stack
it finds there, so the operands of an operator may be run one behind the other, however they have been made.
-/

namespace Formula

variable {α : Type} [Scalar α]

namespace Sequence

theorem cell_merge {l r : Sequence α} (hl : l.Closed) (hr : r.Closed) (o : BinOp) (x : α) :
    (l.merge r o).cell x = l.cell x >>= fun c => r.cell x >>= fun d => Cell.op o c d := by
  simp only [cell_eq_cellIn]
  rw [cellIn, runIn_merge hl hr]
  cases l.cellIn (.line x) with
  | error e => rfl
  | ok c =>
    cases r.cellIn (.line x) with
    | error e => rfl
    | ok d =>
      have hne : (l.merge r o).isEmpty = false := by simp [merge]
      cases hop : Cell.op o c d <;> simp [bind, Except.bind, hop, settle, hne]

theorem cell?_merge {l r : Sequence α} (hl : l.Closed) (hr : r.Closed) (o : BinOp) (x : α) :
    (l.merge r o).cell? x = (l.cell? x).bind fun c => (r.cell? x).bind fun d =>
      if o = .pow ∧ c.value < 0.0 ∧ d.depends then none
      else some ⟨o.apply c.value d.value, c.depends || d.depends⟩ := by
  rw [cell?, cell_merge hl hr, Except.toOption_bind]
  refine congrArg (Option.bind _) (funext fun c => ?_)
  rw [Except.toOption_bind]
  exact congrArg (Option.bind _) (funext fun d => Cell.op_toOption o c d)

/-- Made of well-formed sequences by joining them and by replacing variables with operands, over and over. -/
inductive Combined : Sequence α → Prop
  | wellFormed {s : Sequence α} : WellFormed s → Combined s
  | merge {l r : Sequence α} (o : BinOp) : Combined l → Combined r → Combined (l.merge r o)
  | substitute {s : Sequence α} (v : α) : Combined s → Combined (s.substitute v)
  | mapVars {s : Sequence α} {f : Slot → Token α} : Combined s → (∀ slot, (f slot).arity = 0) → Combined (s.mapVars f)

theorem Combined.closed {s : Sequence α} (h : Combined s) : Closed s := by
  induction h with
  | wellFormed hs => exact hs.closed
  | merge o _ _ ihl ihr => exact closed_merge ihl ihr o
  | substitute v _ ih => exact closed_mapVars (by rintro (_ | _) <;> rfl) ih
  | mapVars _ hf ih => exact closed_mapVars hf ih

/-- A joined sequence has the value of the operator at the values of its sides, the left one first, and is flagged if one of
them is; it has none where a side has none, or where a negative number is raised to a power that depends on the variable. An
empty side is zero. -/
theorem merge_pointwise {a b : Sequence α} (ha : Combined a) (hb : Combined b) (o : BinOp) (x : α) :
    ((a.merge b o).cell? x = (a.cell? x).bind fun c => (b.cell? x).bind fun d =>
      if o = .pow ∧ c.value < 0.0 ∧ d.depends then none
      else some ⟨o.apply c.value d.value, c.depends || d.depends⟩) ∧
    cell? [] x = some ⟨0.0, false⟩ :=
  ⟨cell?_merge ha.closed hb.closed o x, rfl⟩

/-- `2 * x - 0` to the power of `x`, where its left side has been substituted and joined with an empty one. -/
theorem merge_pointwise_nested :
    let a : Sequence Float := merge (substitute [.var .independent, .var .dependent, .op .mul] 2.0) [] .sub
    Combined a ∧ Combined [Token.var (α := Float) .independent] ∧
      cell? (a.merge [.var .independent] .pow) (-3.0) = none ∧
      cell? (a.merge [.var .independent] .pow) 3.0 = some ⟨Float.pow (2.0 * 3.0 - 0.0) 3.0, true⟩ := by
  intro a
  have hx : Combined [Token.var (α := Float) .independent] := .wellFormed (Term.var .independent).wellFormed_postorder
  have ha : Combined a := .merge .sub
    (.substitute 2.0 (.wellFormed (Term.op .mul (.var .independent) (.var .dependent)).wellFormed_postorder))
    (.wellFormed wellFormed_nil)
  have hneg : (2.0 * -3.0 - 0.0 : Float) < 0.0 := by decide +kernel
  have hpos : ¬ (2.0 * 3.0 - 0.0 : Float) < 0.0 := by decide +kernel
  have hleft : ∀ x, a.cell? x = some ⟨2.0 * x - 0.0, true⟩ := fun x => rfl
  have hright : ∀ x : Float, cell? [.var .independent] x = some ⟨x, true⟩ := fun x => rfl
  refine ⟨ha, hx, ?_, ?_⟩
  · rw [(merge_pointwise ha hx .pow (-3.0)).1, hleft, hright]
    simp [hneg]
  · rw [(merge_pointwise ha hx .pow 3.0).1, hleft, hright]
    simp [hpos, BinOp.apply, Scalar.pow]

end Sequence

end Formula
