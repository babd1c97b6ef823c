import Formula.Rendering
import Formula.Proofs.Evaluation

/-!
Stack heights. A sequence that is closed at every level never lacks an operand and leaves exactly one result, when it is
evaluated as well as when it is printed.
-/

namespace Formula

variable {α : Type}

namespace Token

/-- How many operands a token takes off the stack; it puts one result back. -/
def arity : Token α → Nat
  | neg => 1
  | op _ => 2
  | number _ | var _ | call .. | log .. => 0

def arguments : Token α → List (Sequence α)
  | call _ arg => [arg]
  | log base arg => [base, arg]
  | number _ | var _ | neg | op _ => []

end Token

namespace Sequence

/-- The height of the stack after running on a stack of height `n`; `none` if an operand is missing on the way. -/
def height (n : Nat) : Sequence α → Option Nat
  | [] => some n
  | t :: ts => if t.arity ≤ n then height (n - t.arity + 1) ts else none

/-- `Within u s`: `u` is `s` itself or an argument somewhere inside it. -/
inductive Within : Sequence α → Sequence α → Prop
  | self (s : Sequence α) : Within s s
  | argument {t : Token α} {s a u : Sequence α} : t ∈ s → a ∈ t.arguments → Within u a → Within u s

/-- Empty, or run from an empty stack it finds all operands and leaves one value. -/
def Closed (s : Sequence α) : Prop := s = [] ∨ s.height 0 = some 1

def WellFormed (s : Sequence α) : Prop := ∀ u, Within u s → Closed u

theorem height_append (s t : Sequence α) (n : Nat) : height n (s ++ t) = (height n s).bind fun m => height m t := by
  induction s generalizing n with
  | nil => rfl
  | cons u us ih =>
    simp only [List.cons_append, height]
    split
    · exact ih _
    · rfl

theorem height_add {s : Sequence α} {n m : Nat} (h : height n s = some m) (k : Nat) :
    height (n + k) s = some (m + k) := by
  induction s generalizing n with
  | nil => simpa [height] using h
  | cons t ts ih =>
    simp only [height, Option.ite_none_right_eq_some] at h ⊢
    obtain ⟨hn, ht⟩ := h
    have he : n + k - t.arity + 1 = n - t.arity + 1 + k := by omega
    exact ⟨by omega, by rw [he]; exact ih ht⟩

theorem Within.trans {s t u : Sequence α} (h : Within u t) (h' : Within t s) : Within u s := by
  induction h' with
  | self => exact h
  | argument ht ha _ ih => exact .argument ht ha (ih h)

namespace WellFormed

variable {s : Sequence α}

theorem closed (h : WellFormed s) : Closed s := h s (.self s)

theorem within {u : Sequence α} (h : WellFormed s) (hu : Within u s) : WellFormed u := fun v hv => h v (hv.trans hu)

theorem argument {t : Token α} {a : Sequence α} (h : WellFormed s) (ht : t ∈ s) (ha : a ∈ t.arguments) : WellFormed a :=
  h.within (.argument ht ha (.self a))

theorem intro (hs : Closed s) (ha : ∀ t ∈ s, ∀ a ∈ t.arguments, WellFormed a) : WellFormed s := by
  intro u hu
  cases hu with
  | self => exact hs
  | argument ht hm hu => exact ha _ ht _ hm u hu

end WellFormed

end Sequence

/-! ## Running -/

/-- A run that fails only for want of a value and otherwise leaves `n` cells. -/
def Leaves (n : Nat) : Except Fault (List (Cell α)) → Prop
  | .ok stack => stack.length = n
  | .error e => e ≠ .underflow

theorem Leaves.bind {β : Type} {n : Nat} {e : Except Fault β} {f : β → Except Fault (List (Cell α))}
    (he : e ≠ .error .underflow) (hf : ∀ b, Leaves n (f b)) : Leaves n (e >>= f) := by
  cases e with
  | error fault => simpa [Leaves, Bind.bind, Except.bind] using he
  | ok b => exact hf b

variable [Scalar α]

namespace Cell

theorem call_ne_underflow (f : Func) (a : Cell α) : a.call f ≠ .error .underflow := by
  unfold call
  split <;> simp

theorem log_ne_underflow (b a : Cell α) : log b a ≠ .error .underflow := by
  unfold log
  split <;> simp

theorem op_ne_underflow (o : BinOp) (l r : Cell α) : op o l r ≠ .error .underflow := by
  unfold op
  split <;> simp

end Cell

namespace Sequence

theorem cell_ne_underflow {s : Sequence α} {x : α} (hs : s.Closed)
    (h : ∀ n, s.height 0 = some n → Leaves n (run x [] s)) : s.cell x ≠ .error .underflow := by
  rw [cell]
  rcases hs with rfl | hs
  · simp [run, settle, bind, Except.bind]
  · have hl := h 1 hs
    cases hr : run x [] s with
    | error e =>
      rw [hr] at hl
      simpa [bind, Except.bind, Leaves] using hl
    | ok stack =>
      rw [hr] at hl
      obtain ⟨c, rfl⟩ := List.length_eq_one_iff.1 hl
      simp only [bind, Except.bind, settle]
      split <;> simp

-- An argument runs on a stack of its own, so its heights start at zero whatever lies below the call.
theorem argument_ne_underflow {a : Sequence α} {x : α} (ha : WellFormed a)
    (ih : (∀ t ∈ a, ∀ b ∈ t.arguments, WellFormed b) → ∀ (stack : List (Cell α)) (n : Nat),
      a.height stack.length = some n → Leaves n (run x stack a)) : a.cell x ≠ .error .underflow :=
  cell_ne_underflow ha.closed fun n hn => ih (fun _ ht _ hb => ha.argument ht hb) [] n hn

theorem leaves_run (x : α) :
    (∀ t : Token α, (∀ a ∈ t.arguments, WellFormed a) → ∀ stack : List (Cell α), t.arity ≤ stack.length →
      Leaves (stack.length - t.arity + 1) (Token.run x stack t)) ∧
    ∀ s : Sequence α, (∀ t ∈ s, ∀ a ∈ t.arguments, WellFormed a) → ∀ (stack : List (Cell α)) (n : Nat),
      s.height stack.length = some n → Leaves n (run x stack s) := by
  refine Token.induct ?number ?var ?call ?log ?neg ?op ?nil ?cons
  case number =>
    intro v _ stack _
    simp [Token.run, Leaves, Token.arity]
  case var =>
    intro s _ stack _
    cases s <;> simp [Token.run, Leaves, Token.arity]
  case call =>
    intro f arg ih ha stack _
    rw [Token.run_call]
    refine .bind (argument_ne_underflow (ha arg (by simp [Token.arguments])) ih) fun a => ?_
    exact .bind (a.call_ne_underflow f) fun c => by simp [Leaves, Token.arity]
  case log =>
    intro base arg ihb iha ha stack _
    rw [Token.run_log]
    refine .bind (argument_ne_underflow (ha base (by simp [Token.arguments])) ihb) fun b => ?_
    refine .bind (argument_ne_underflow (ha arg (by simp [Token.arguments])) iha) fun a => ?_
    exact .bind (b.log_ne_underflow a) fun c => by simp [Leaves, Token.arity]
  case neg =>
    intro _ stack hs
    rcases stack with _ | ⟨c, below⟩
    · simp [Token.arity] at hs
    · simp [Token.run, Leaves, Token.arity]
  case op =>
    intro o _ stack hs
    rcases stack with _ | ⟨r, _ | ⟨l, below⟩⟩
    · simp [Token.arity] at hs
    · simp [Token.arity] at hs
    · exact .bind (Cell.op_ne_underflow o l r) fun c => by simp [Leaves, Token.arity, pure, Except.pure]
  case nil =>
    intro _ stack n hn
    simpa [run, Leaves, height] using hn
  case cons =>
    intro t ts iht ihts ha stack n hn
    simp only [height, Option.ite_none_right_eq_some] at hn
    obtain ⟨ht, hts⟩ := hn
    have hl := iht (ha t List.mem_cons_self) stack ht
    rw [run]
    cases hr : Token.run x stack t with
    | error e =>
      rw [hr] at hl
      exact hl
    | ok st =>
      rw [hr] at hl
      exact ihts (fun u hu => ha u (List.mem_cons_of_mem _ hu)) st n (by rw [hl]; exact hts)

end Sequence

/-! ## Printing -/

namespace Sequence

theorem pieces_of_height (names : Names) {s : Sequence α} {stack : List Piece} {n : Nat}
    (h : s.height stack.length = some n) : ∃ ps, pieces names stack s = some ps ∧ ps.length = n := by
  induction s generalizing stack with
  | nil => exact ⟨stack, rfl, by simpa [height] using h⟩
  | cons t ts ih =>
    simp only [height, Option.ite_none_right_eq_some] at h
    obtain ⟨ht, hts⟩ := h
    have hp : ∃ ps, Token.render names stack t = some ps ∧ ps.length = stack.length - t.arity + 1 := by
      cases t with
      | number v => exact ⟨_, rfl, rfl⟩
      | var s => exact ⟨_, rfl, rfl⟩
      | call f arg => exact ⟨_, rfl, rfl⟩
      | log base arg => exact ⟨_, rfl, rfl⟩
      | neg =>
        rcases stack with _ | ⟨p, below⟩
        · simp [Token.arity] at ht
        · exact ⟨_, rfl, rfl⟩
      | op o =>
        rcases stack with _ | ⟨r, _ | ⟨l, below⟩⟩
        · simp [Token.arity] at ht
        · simp [Token.arity] at ht
        · exact ⟨_, rfl, rfl⟩
    obtain ⟨ps, hps, hlen⟩ := hp
    obtain ⟨qs, hqs, hn⟩ : ∃ qs, pieces names ps ts = some qs ∧ qs.length = n := ih (by rw [hlen]; exact hts)
    exact ⟨qs, by rw [pieces, hps]; exact hqs, hn⟩

end Sequence

end Formula
