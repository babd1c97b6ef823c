import Formula.Proofs.Built
import Formula.Proofs.Rendering.Piece
import Formula.Proofs.Scalar.Parts

/-!
A sequence as its text spells it. A number with a minus prints like the negation of its magnitude and an empty part like
a zero, so they are spelled that way; height, nesting, value and text stay as they are.
-/

namespace Formula

variable {α : Type} [Scalar α]

mutual

/-- A number with a minus takes two tokens. -/
def Token.spell : Token α → Sequence α
  | .number v => if Scalar.isNegative v then [.number (Scalar.abs v), .neg] else [.number v]
  | .var slot => [.var slot]
  | .call f arg => [.call f (Sequence.operand (Sequence.spell arg))]
  | .log base arg => [.log (Sequence.operand (Sequence.spell base)) (Sequence.operand (Sequence.spell arg))]
  | .neg => [.neg]
  | .op o => [.op o]

def Sequence.spell : Sequence α → Sequence α
  | [] => []
  | t :: ts => Token.spell t ++ Sequence.spell ts

end

namespace Sequence

/-- What the text of `s` spells; no part of it is empty. -/
def spelled (s : Sequence α) : Sequence α := operand (spell s)

theorem isEmpty_spell (s : Sequence α) : (spell s).isEmpty = s.isEmpty := by
  rcases s with _ | ⟨t, ts⟩
  · rfl
  · have ht : t.spell ≠ [] := by
      cases t with
      | number v =>
        rw [Token.spell]
        split <;> simp
      | var | call | log | neg | op => simp [Token.spell]
    simp [spell, ht]

theorem spelled_nil : spelled ([] : Sequence α) = [.number 0.0] := by
  simp [spelled, spell, operand]

theorem spelled_of_ne_nil {s : Sequence α} (hs : s ≠ []) : spelled s = spell s := by
  rw [spelled, operand, isEmpty_spell, if_neg (by simpa using hs)]

theorem operand_ne_nil (s : Sequence α) : operand s ≠ [] := by
  rw [operand]
  split
  · simp
  · next hs => simpa using hs

/-! ## Shape -/

theorem height_spell (s : Sequence α) (n : Nat) : height n (spell s) = height n s := by
  induction s generalizing n with
  | nil => rfl
  | cons t ts ih =>
    have ht : height n t.spell = height n [t] := by
      cases t with
      | number v =>
        rw [Token.spell]
        split <;> simp [height, Token.arity]
      | var | call | log | neg | op => simp [Token.spell, height, Token.arity]
    have hone : height n (t :: ts) = (height n [t]).bind fun m => height m ts := height_append [t] ts n
    rw [hone, spell, height_append, ht, funext ih]

theorem closed_spelled {s : Sequence α} (h : Closed s) : Closed (spelled s) := by
  rcases h with rfl | h
  · exact .inr (by simp [spelled_nil, height, Token.arity])
  · refine .inr ?_
    rw [spelled_of_ne_nil, height_spell, h]
    rintro rfl
    cases h

theorem argument_spelled {s : Sequence α} {t : Token α} {a : Sequence α} (ht : t ∈ spelled s) (ha : a ∈ t.arguments) :
    ∃ u ∈ s, ∃ b ∈ u.arguments, a = spelled b := by
  rcases eq_or_ne s [] with rfl | hs
  · rw [spelled_nil, List.mem_singleton] at ht
    simp [ht, Token.arguments] at ha
  rw [spelled_of_ne_nil hs] at ht
  clear hs
  induction s with
  | nil => simp [spell] at ht
  | cons u us ih =>
    rw [spell, List.mem_append] at ht
    rcases ht with ht | ht
    · refine ⟨u, List.mem_cons_self, ?_⟩
      cases u with
      | number v =>
        rw [Token.spell] at ht
        split at ht
        · rcases List.mem_cons.1 ht with rfl | ht
          · simp [Token.arguments] at ha
          · rw [List.mem_singleton.1 ht] at ha
            simp [Token.arguments] at ha
        · rw [List.mem_singleton.1 ht] at ha
          simp [Token.arguments] at ha
      | var | neg | op =>
        simp only [Token.spell, List.mem_singleton] at ht
        simp [ht, Token.arguments] at ha
      | call | log =>
        simp only [Token.spell, List.mem_singleton] at ht
        simpa [ht, Token.arguments, spelled] using ha
    · obtain ⟨v, hv, hb⟩ := ih ht
      exact ⟨v, List.mem_cons_of_mem _ hv, hb⟩

theorem within_spelled {s u : Sequence α} (h : Within u (spelled s)) : ∃ v, Within v s ∧ u = spelled v := by
  generalize hw : spelled s = w at h
  induction h generalizing s with
  | self => exact ⟨s, .self s, hw.symm⟩
  | argument ht ha _ ih =>
    subst hw
    obtain ⟨t, ht, b, hb, rfl⟩ := argument_spelled ht ha
    obtain ⟨v, hv, rfl⟩ := ih rfl
    exact ⟨v, .argument ht hb hv, rfl⟩

/-- Spelled out, a well-formed sequence is the postorder of a tree. -/
theorem exists_postorder_spelled {s : Sequence α} (h : WellFormed s) : ∃ t : Term α, t.postorder = spelled s := by
  refine Term.exists_postorder (fun u hu => ?_) fun u hu => ?_
  · obtain ⟨v, hv, rfl⟩ := within_spelled hu
    exact closed_spelled (h v hv)
  · obtain ⟨v, -, rfl⟩ := within_spelled hu
    exact operand_ne_nil (spell v)

theorem depth_operand (s : Sequence α) : depth (operand s) = depth s := by
  rw [operand]
  split
  · next hs =>
    rw [List.isEmpty_iff.1 hs]
    rfl
  · rfl

theorem depth_spelled (s : Sequence α) : depth (spelled s) = depth s := by
  rw [spelled, depth_operand]
  have hall : (∀ t : Token α, depth t.spell = t.depth) ∧ ∀ s : Sequence α, depth (spell s) = depth s := by
    refine Token.induct ?number ?var ?call ?log ?neg ?op ?nil ?cons
    case number =>
      intro v
      rw [Token.spell]
      split <;> rfl
    case var | op => exact fun _ => rfl
    case neg => rfl
    case call =>
      intro f arg ih
      simp [Token.spell, depth, Token.depth, depth_operand, ih]
    case log =>
      intro base arg ihb iha
      simp [Token.spell, depth, Token.depth, depth_operand, ihb, iha]
    case nil => rfl
    case cons =>
      intro t ts iht ihts
      rw [spell, depth_append, iht, ihts, depth]
  exact hall.2 s

/-! ## Literals -/

theorem forall_literals_operand {P : α → Prop} (h0 : P 0.0) {s : Sequence α} (h : ∀ v ∈ s.literals, P v) :
    ∀ v ∈ (operand s).literals, P v := by
  rw [operand]
  split
  · simpa [literals, Token.literals] using h0
  · exact h

/-- The numbers that are spelled are magnitudes, unless they carry no minus anyway, and the zeros that were left out. -/
theorem forall_literals_spelled {P : α → Prop} (h0 : P 0.0) {s : Sequence α}
    (h : ∀ v ∈ s.literals, P (if Scalar.isNegative v then Scalar.abs v else v)) : ∀ v ∈ (spelled s).literals, P v := by
  refine forall_literals_operand h0 ?_
  have hall : (∀ t : Token α, (∀ v ∈ t.literals, P (if Scalar.isNegative v then Scalar.abs v else v)) →
      ∀ v ∈ literals t.spell, P v) ∧
      ∀ s : Sequence α, (∀ v ∈ s.literals, P (if Scalar.isNegative v then Scalar.abs v else v)) →
        ∀ v ∈ (spell s).literals, P v := by
    refine Token.induct ?number ?var ?call ?log ?neg ?op ?nil ?cons
    case number =>
      intro v hv
      have hv : P (if Scalar.isNegative v then Scalar.abs v else v) := hv v (by simp [Token.literals])
      rw [Token.spell]
      split
      · next hn => simpa [literals, Token.literals, hn] using hv
      · next hn => simpa [literals, Token.literals, hn] using hv
    case var | neg | op => simp [Token.spell, literals, Token.literals]
    case call =>
      intro f arg ih ha
      simpa [Token.spell, literals, Token.literals] using forall_literals_operand h0 (ih ha)
    case log =>
      intro base arg ihb iha ha v hv
      simp only [Token.spell, literals, Token.literals, List.append_nil, List.mem_append] at ha hv
      rcases hv with hv | hv
      · exact forall_literals_operand h0 (ihb fun w hw => ha w (.inl hw)) v hv
      · exact forall_literals_operand h0 (iha fun w hw => ha w (.inr hw)) v hv
    case nil => simp [spell, literals]
    case cons =>
      intro t ts iht ihts ha v hv
      simp only [spell, literals_append, literals, List.mem_append] at ha hv
      rcases hv with hv | hv
      · exact iht (fun w hw => ha w (.inl hw)) v hv
      · exact ihts (fun w hw => ha w (.inr hw)) v hv
  exact hall.2 s h

/-! ## Text -/

theorem joined_spelled (h0 : Scalar.text (0.0 : α) = "0") (names : Names) {s : Sequence α}
    (h : pieces names [] (spell s) = pieces names [] s) :
    joined (spelled s) (pieces names [] (spelled s)) = joined s (pieces names [] s) := by
  rcases eq_or_ne s [] with rfl | hs
  · simp [spelled_nil, pieces, Token.render, joined, Piece.number, h0]
  · rw [spelled_of_ne_nil hs, h]
    unfold joined
    rw [isEmpty_spell]

theorem pieces_spell (h0 : Scalar.text (0.0 : α) = "0") (names : Names) :
    (∀ t : Token α, (∀ v ∈ t.literals, Scalar.isNegative v → Scalar.Signed v) →
      ∀ stack, pieces names stack t.spell = Token.render names stack t) ∧
    ∀ s : Sequence α, (∀ v ∈ s.literals, Scalar.isNegative v → Scalar.Signed v) →
      ∀ stack, pieces names stack (spell s) = pieces names stack s := by
  refine Token.induct ?number ?var ?call ?log ?neg ?op ?nil ?cons
  case number =>
    intro v hv stack
    rw [Token.spell]
    split
    · next hn =>
      have hs : Scalar.Signed v := hv v (by simp [Token.literals]) hn
      have hp : (Piece.number (Scalar.abs v)).neg = .number v := by
        simp [Piece.number, Piece.neg, Piece.enclosed, Piece.atomic, signPrecedence, hs.isNegative_abs, hs.text, hn]
      simp [pieces, Token.render, hp]
    · simp [pieces, Token.render]
  case var | op => exact fun _ _ _ => by simp [Token.spell, pieces]
  case neg => exact fun _ _ => by simp [Token.spell, pieces]
  case call =>
    intro f arg ih ha stack
    have hj := joined_spelled h0 names (ih ha [])
    simp only [Token.spell, pieces, Token.render, Option.bind_some]
    rw [← hj, spelled]
  case log =>
    intro base arg ihb iha ha stack
    simp only [Token.literals, List.mem_append] at ha
    have hb := joined_spelled h0 names (ihb (fun v hv => ha v (.inl hv)) [])
    have hj := joined_spelled h0 names (iha (fun v hv => ha v (.inr hv)) [])
    simp only [Token.spell, pieces, Token.render, Option.bind_some]
    rw [← hb, ← hj, spelled, spelled]
  case nil => exact fun _ _ => rfl
  case cons =>
    intro t ts iht ihts ha stack
    simp only [literals, List.mem_append] at ha
    have ht := iht (fun v hv => ha v (.inl hv)) stack
    have hts := ihts fun v hv => ha v (.inr hv)
    rw [spell, pieces_append, ht, pieces, funext hts]

theorem render_spelled (h0 : Scalar.text (0.0 : α) = "0") (names : Names) {s : Sequence α}
    (h : ∀ v ∈ s.literals, Scalar.isNegative v → Scalar.Signed v) : s.spelled.render names = s.render names :=
  joined_spelled h0 names ((pieces_spell h0 names).2 s h [])

/-! ## Value -/

theorem cell_spelled_of_run {s : Sequence α} {x : α} (h : run x [] (spell s) = run x [] s) :
    (spelled s).cell x = s.cell x := by
  rcases eq_or_ne s [] with rfl | hs
  · rw [spelled_nil]
    rfl
  · have hset : settle (spell s) = settle s := by
      funext stack
      unfold settle
      rw [isEmpty_spell]
    rw [spelled_of_ne_nil hs, cell, cell, h, hset]

theorem run_spell (x : α) :
    (∀ t : Token α, (∀ v ∈ t.literals, Scalar.isNegative v → Scalar.Signed v) →
      ∀ stack, run x stack t.spell = Token.run x stack t) ∧
    ∀ s : Sequence α, (∀ v ∈ s.literals, Scalar.isNegative v → Scalar.Signed v) →
      ∀ stack, run x stack (spell s) = run x stack s := by
  refine Token.induct ?number ?var ?call ?log ?neg ?op ?nil ?cons
  case number =>
    intro v hv stack
    rw [Token.spell]
    split
    · next hn =>
      have hs : Scalar.Signed v := hv v (by simp [Token.literals]) hn
      have hc : (Cell.constant (Scalar.abs v)).neg = .constant v := by
        rw [Cell.constant, Cell.neg, hs.neg_abs, Cell.constant]
      simp [run, Token.run, bind, Except.bind, hc]
    · rw [run_singleton]
  case var | op => exact fun _ _ _ => by rw [Token.spell, run_singleton]
  case neg => exact fun _ _ => by rw [Token.spell, run_singleton]
  case call =>
    intro f arg ih ha stack
    have hc : (operand (spell arg)).cell x = arg.cell x := cell_spelled_of_run (ih ha [])
    rw [Token.spell, run_singleton, Token.run_call, Token.run_call, hc]
  case log =>
    intro base arg ihb iha ha stack
    simp only [Token.literals, List.mem_append] at ha
    have hb : (operand (spell base)).cell x = base.cell x := cell_spelled_of_run (ihb (fun v hv => ha v (.inl hv)) [])
    have hc : (operand (spell arg)).cell x = arg.cell x := cell_spelled_of_run (iha (fun v hv => ha v (.inr hv)) [])
    rw [Token.spell, run_singleton, Token.run_log, Token.run_log, hb, hc]
  case nil => exact fun _ _ => rfl
  case cons =>
    intro t ts iht ihts ha stack
    simp only [literals, List.mem_append] at ha
    have ht := iht (fun v hv => ha v (.inl hv)) stack
    have hts := ihts fun v hv => ha v (.inr hv)
    rw [spell, run_append, ht, run, funext hts]
    rfl

theorem cell?_spelled {s : Sequence α} (h : ∀ v ∈ s.literals, Scalar.isNegative v → Scalar.Signed v) (x : α) :
    s.spelled.cell? x = s.cell? x := by
  rw [cell?, cell?, cell_spelled_of_run ((run_spell x).2 s h [])]

end Sequence

end Formula
