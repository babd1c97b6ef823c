import Formula.Proofs.Grammar.Effect

/-!
How deep calls nest in what the machine builds: whatever a level holds, together with the calls suspended around it,
stays within the bound.
-/

namespace Formula

variable {α : Type}

theorem Sequence.depth_reverse (s : Sequence α) : depth s.reverse = depth s := by
  induction s with
  | nil => rfl
  | cons t ts ih => simp [depth_append, depth, ih, Nat.max_comm]

namespace Level

theorem depth_emit (out : List (Token α)) (ps : List Pending) : Sequence.depth (emit out ps) = Sequence.depth out := by
  induction ps generalizing out with
  | nil => rfl
  | cons p ps ih =>
    rw [show p :: ps = [p] ++ ps from rfl, emit_append, ih]
    cases p <;> simp [emit, List.filterMap_cons, Pending.token?, Sequence.depth, Token.depth]

theorem depth_finish (l : Level α) : Sequence.depth l.finish = Sequence.depth l.output := by
  rw [finish, Sequence.depth_reverse, depth_emit]

theorem depth_push (l : Level α) (t : Token α) :
    Sequence.depth (l.push t).output = max t.depth (Sequence.depth l.output) := rfl

theorem depth_operand (l : Level α) (t : Term α) :
    Sequence.depth (l.feed [.operand t]).output = max t.depth (Sequence.depth l.output) := by
  simp [feed, take, Sequence.depth_append, Sequence.depth_reverse, Term.depth_postorder]

end Level

/-- The depth of what has been read of a call's arguments. -/
def Call.depth : Call α → Nat
  | unary _ | logBase => 0
  | logArgument base => Sequence.depth base

theorem Call.Starts.depth {call : Call α} (h : call.Starts) : call.depth = 0 := by
  rcases h with rfl | ⟨f, rfl⟩ <;> rfl

namespace Machine

def Nests (limit : Nat) : List (Suspended α) → Prop
  | [] => True
  | p :: outer =>
    Sequence.depth p.level.output + outer.length ≤ limit ∧ p.call.depth + 1 + outer.length ≤ limit ∧ Nests limit outer

def Fits (g : Grammar) (m : Machine α) : Prop :=
  Sequence.depth m.level.output + m.outer.length ≤ g.maxDepth ∧ Nests g.maxDepth m.outer

variable [Scalar α] {g : Grammar}

theorem fits_step {m n : Machine α} (h : Fits g m) (he : Effect g m n) : Fits g n := by
  obtain ⟨hl, ho⟩ := h
  cases he with
  | @leaf c d l outer sign here t _ _ ht =>
    have h0 : t.depth = 0 := by cases ht <;> rfl
    refine ⟨?_, ho⟩
    rwa [Level.depth_operand, h0, Nat.zero_max]
  | word hc _ _ hd => exact ⟨by simpa [Sequence.depth] using hd, hl, by rw [hc.depth]; omega, ho⟩
  | group => exact ⟨hl, ho⟩
  | minus => exact ⟨hl, ho⟩
  | operator | close => exact ⟨by simpa only [Level.operator, Level.closeParen, Level.depth_emit] using hl, ho⟩
  | unary =>
    obtain ⟨hp, hc, ho⟩ := ho
    refine ⟨?_, ho⟩
    simp only [List.length_cons, Level.depth_push, Token.depth, Level.depth_finish] at hl hp ⊢
    omega
  | base _ _ hd =>
    obtain ⟨hp, hc, ho⟩ := ho
    refine ⟨by simpa [Sequence.depth] using hd, hp, ?_, ho⟩
    simp only [List.length_cons, Call.depth, Level.depth_finish] at hl ⊢
    omega
  | argument =>
    obtain ⟨hp, hc, ho⟩ := ho
    refine ⟨?_, ho⟩
    simp only [List.length_cons, Level.depth_push, Token.depth, Level.depth_finish, Call.depth] at hl hp hc ⊢
    omega

theorem depth_of_run {text : List Char} {s : Sequence α} {rest : Cursor}
    (h : run g (.start (.ofList text)) = .ok (s, rest)) : Sequence.depth s ≤ g.maxDepth := by
  have h0 : Fits (α := α) g (.start (.ofList text)) := ⟨Nat.zero_le _, trivial⟩
  obtain ⟨m, ⟨hl, -⟩, hd⟩ := run_induct (fun _ _ hm hs => fits_step hm (effect_of_step hs)) h0 h
  obtain ⟨⟨hn, -, rfl⟩, -⟩ := done_of_step hd
  rw [Level.depth_finish]
  exact Nat.le_trans (Nat.le_add_right _ _) hl

end Machine

end Formula
