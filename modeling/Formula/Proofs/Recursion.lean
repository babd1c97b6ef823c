import Formula.Evaluation
import Formula.Rendering
import Formula.Proofs.Closed

/-!
How deep the functions on sequences recurse. One call of such a function handles all tokens of one level and asks for the
arguments of the calls among them, so a sequence whose calls nest `n` deep takes `n + 1` calls inside each other, however
long it is: what a deeper call would answer makes no difference.
-/

namespace Formula

variable {α β : Type}

/-- At most `n` further calls inside the outermost; `stop` answers in place of those that are deeper still. -/
def levels (one : (Sequence α → β) → Sequence α → β) (stop : Sequence α → β) : Nat → Sequence α → β
  | 0 => one stop
  | n + 1 => one (levels one stop n)

/-- One call of `f` is `one`, given the answers `sub` to the calls inside, and only arguments are asked for. -/
structure Recursion (f : Sequence α → β) (one : (Sequence α → β) → Sequence α → β) : Prop where
  call : ∀ s, f s = one f s
  congr : ∀ (sub sub' : Sequence α → β) (s : Sequence α),
    (∀ t ∈ s, ∀ a ∈ t.arguments, sub a = sub' a) → one sub s = one sub' s

namespace Sequence

theorem depth_le_of_mem {s : Sequence α} {t : Token α} (h : t ∈ s) : t.depth ≤ depth s := by
  induction s with
  | nil => cases h
  | cons u us ih =>
    rw [depth]
    rcases List.mem_cons.1 h with rfl | h
    · exact Nat.le_max_left _ _
    · exact Nat.le_trans (ih h) (Nat.le_max_right _ _)

theorem depth_argument_lt {s a : Sequence α} {t : Token α} (ht : t ∈ s) (ha : a ∈ t.arguments) : depth a < depth s := by
  refine Nat.lt_of_lt_of_le ?_ (depth_le_of_mem ht)
  cases t with
  | call f arg =>
    rw [List.mem_singleton.1 ha, Token.depth]
    exact Nat.lt_succ_self _
  | log base arg =>
    rw [Token.depth]
    rcases List.mem_cons.1 ha with rfl | ha
    · exact Nat.lt_succ_of_le (Nat.le_max_left _ _)
    · rw [List.mem_singleton.1 ha]
      exact Nat.lt_succ_of_le (Nat.le_max_right _ _)
  | number | var | neg | op => cases ha

end Sequence

open Sequence

-- On the number of calls: an argument nests less deep than the sequence around it.
theorem Recursion.levels_eq {f : Sequence α → β} {one : (Sequence α → β) → Sequence α → β} (h : Recursion f one)
    (stop : Sequence α → β) {n : Nat} {s : Sequence α} (hs : depth s ≤ n) : levels one stop n s = f s := by
  induction n generalizing s with
  | zero =>
    rw [h.call, levels]
    refine h.congr _ _ s fun t ht a ha => ?_
    exact absurd (depth_argument_lt ht ha) (by omega)
  | succ n ih =>
    rw [h.call, levels]
    refine h.congr _ _ s fun t ht a ha => ih ?_
    exact Nat.le_of_lt_succ (Nat.lt_of_lt_of_le (depth_argument_lt ht ha) hs)

theorem foldlM_congr_of_mem {m : Type → Type} [Monad m] {σ τ : Type} {f g : σ → τ → m σ} {l : List τ}
    (h : ∀ t ∈ l, ∀ s, f s t = g s t) (s : σ) : l.foldlM f s = l.foldlM g s := by
  induction l generalizing s with
  | nil => rfl
  | cons t l ih =>
    rw [List.foldlM_cons, List.foldlM_cons, h t List.mem_cons_self]
    exact congrArg _ (funext fun s' => ih (fun u hu => h u (List.mem_cons_of_mem _ hu)) s')

/-! ## Replacing variables -/

def Token.mapVarsOne (f : Slot → Token α) (sub : Sequence α → Sequence α) : Token α → Token α
  | .call g arg => .call g (sub arg)
  | .log base arg => .log (sub base) (sub arg)
  | t => t.mapVars f

def Sequence.mapVarsOne (f : Slot → Token α) (sub : Sequence α → Sequence α) (s : Sequence α) : Sequence α :=
  s.map (Token.mapVarsOne f sub)

theorem Sequence.recursion_mapVars (f : Slot → Token α) : Recursion (mapVars f) (mapVarsOne f) where
  call s := by
    rw [mapVars_eq_map, mapVarsOne]
    refine List.map_congr_left fun t _ => ?_
    cases t <;> simp only [Token.mapVarsOne, Token.mapVars]
  congr sub sub' s h := by
    refine List.map_congr_left fun t ht => ?_
    have ha := h t ht
    cases t with
    | call | log => simp_all [Token.mapVarsOne, Token.arguments]
    | number | var | neg | op => rfl

variable [Scalar α]

/-! ## Evaluating -/

def Token.runOne (x : α) (sub : Sequence α → Except Fault (Cell α)) (stack : List (Cell α)) :
    Token α → Except Fault (List (Cell α))
  | .call f arg => do
    let a ← sub arg
    return (← a.call f) :: stack
  | .log base arg => do
    let b ← sub base
    let a ← sub arg
    return (← Cell.log b a) :: stack
  | t => t.run x stack

def Sequence.cellOne (x : α) (sub : Sequence α → Except Fault (Cell α)) (s : Sequence α) : Except Fault (Cell α) := do
  settle s (← s.foldlM (Token.runOne x sub) [])

theorem Sequence.run_eq_foldlM (x : α) (stack : List (Cell α)) (s : Sequence α) :
    run x stack s = s.foldlM (Token.runOne x fun a => a.cell x) stack := by
  induction s generalizing stack with
  | nil => rfl
  | cons t ts ih =>
    have ht : t.run x stack = t.runOne x (fun a => a.cell x) stack := by
      cases t with
      | call f arg => exact Token.run_call x stack f arg
      | log base arg => exact Token.run_log x stack base arg
      | number | var | neg | op => rfl
    rw [run, List.foldlM_cons, ht]
    exact congrArg _ (funext ih)

theorem Sequence.recursion_cell (x : α) : Recursion (fun s => s.cell x) (cellOne x) where
  call s := by rw [cell, run_eq_foldlM, cellOne]
  congr sub sub' s h := by
    have hs : s.foldlM (Token.runOne x sub) [] = s.foldlM (Token.runOne x sub') [] := by
      refine foldlM_congr_of_mem (fun t ht stack => ?_) []
      have ha := h t ht
      cases t with
      | call | log => simp_all [Token.runOne, Token.arguments]
      | number | var | neg | op => rfl
    rw [cellOne, cellOne, hs]

/-! ## Printing -/

def Token.renderOne (names : Names) (sub : Sequence α → String) (stack : List Piece) : Token α → Option (List Piece)
  | .call f arg => some (.atom (f.name ++ "(" ++ sub arg ++ ")") :: stack)
  | .log base arg => some (.atom ("log(" ++ sub base ++ ", " ++ sub arg ++ ")") :: stack)
  | t => t.render names stack

def Sequence.renderOne (names : Names) (sub : Sequence α → String) (s : Sequence α) : String :=
  joined s (s.foldlM (Token.renderOne names sub) [])

theorem Sequence.pieces_eq_foldlM (names : Names) (stack : List Piece) (s : Sequence α) :
    pieces names stack s = s.foldlM (Token.renderOne names (render names)) stack := by
  induction s generalizing stack with
  | nil => rfl
  | cons t ts ih =>
    have ht : t.render names stack = t.renderOne names (render names) stack := by
      cases t <;> rfl
    rw [pieces, List.foldlM_cons, ht]
    exact congrArg _ (funext ih)

theorem Sequence.recursion_render (names : Names) : Recursion (render (α := α) names) (renderOne names) where
  call s := by rw [render, pieces_eq_foldlM, renderOne]
  congr sub sub' s h := by
    have hs : s.foldlM (Token.renderOne names sub) [] = s.foldlM (Token.renderOne names sub') [] := by
      refine foldlM_congr_of_mem (fun t ht stack => ?_) []
      have ha := h t ht
      cases t with
      | call | log => simp_all [Token.renderOne, Token.arguments]
      | number | var | neg | op => rfl
    rw [renderOne, renderOne, hs]

end Formula
