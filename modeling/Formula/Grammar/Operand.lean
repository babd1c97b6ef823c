import Formula.Grammar.Error
import Formula.Sequence

/-!
What may stand as an operand: a variable, a constant, a numeral, or the word of a function whose argument follows. They
are tried in this order, so a variable's name hides all else that starts the same way.
-/

namespace Formula

structure Grammar where
  names : List (String × Slot)
  /-- How deep calls may nest. -/
  maxDepth : Nat := 64

namespace Grammar

def oneVariable (independent : String) : Grammar := { names := [(independent, .independent)] }

def twoVariables (independent dependent : String) : Grammar :=
  { names := [(independent, .independent), (dependent, .dependent)] }

end Grammar

/-- A call whose argument is being read. -/
inductive Call (α : Type) where
  | unary (f : Func)
  | logBase
  | logArgument (base : Sequence α)

def Call.name {α : Type} : Call α → String
  | unary f => f.name
  | logBase | logArgument _ => "log"

theorem Call.name_ne_nil {α : Type} (call : Call α) : call.name.toList ≠ [] := by
  rcases call with f | _ | _
  · cases f <;> simp [name, Func.name]
  · simp [name]
  · simp [name]

inductive Constant where
  | euler
  | pi
  deriving DecidableEq, Repr

def Constant.word : Constant → List Char
  | euler => ['e']
  | pi => ['p', 'i']

theorem Constant.word_ne_nil (k : Constant) : k.word ≠ [] := by cases k <;> simp [word]

def Constant.value {α : Type} [Scalar α] : Constant → α
  | euler => Scalar.euler
  | pi => Scalar.pi

inductive Operand (α : Type) where
  | leaf (t : Token α)
  | word (c : Call α)

namespace Cursor

variable {α : Type}

/-- The first name that the text continues with; an empty name matches nothing. -/
def slotName? (c : Cursor) : List (String × Slot) → Option (Slot × Cursor)
  | [] => none
  | (name, slot) :: names =>
    if name.isEmpty then c.slotName? names
    else ((c.acceptWord? name.toList).map (slot, ·)).or (c.slotName? names)

def constant? (c : Cursor) : Option (Constant × Cursor) :=
  ((c.acceptWord? Constant.euler.word).map (.euler, ·)).or ((c.acceptWord? Constant.pi.word).map (.pi, ·))

def callWord? (c : Cursor) : Option (Call α × Cursor) :=
  let calls := Func.all.map Call.unary ++ [Call.logBase]
  calls.findSome? fun call => (c.acceptWord? call.name.toList).map (call, ·)

/-- The operand at the cursor, spaces skipped before. -/
def operand? [Scalar α] (g : Grammar) (c : Cursor) : Except ParseError (Option (Operand α × Cursor)) :=
  match c.slotName? g.names with
  | some (slot, d) => .ok (some (.leaf (.var slot), d))
  | none =>
    match c.constant? with
    | some (k, d) => .ok (some (.leaf (.number k.value), d))
    | none =>
      match c.numeral? with
      | .error e => .error (.malformedNumber e)
      | .ok (some (n, d)) => .ok (some (.leaf (.number n.value), d))
      | .ok none => .ok (c.callWord?.map fun (call, d) => (.word call, d))

theorem slotName?_moves {c d : Cursor} {names : List (String × Slot)} {s : Slot}
    (h : c.slotName? names = some (s, d)) : ∃ name, (name, s) ∈ names ∧ name.toList ≠ [] ∧ Moves c name.toList d := by
  induction names with
  | nil => simp [slotName?] at h
  | cons p names ih =>
    obtain ⟨name, slot⟩ := p
    rw [slotName?] at h
    split at h
    · obtain ⟨name', hmem, hm⟩ := ih h
      exact ⟨name', List.mem_cons_of_mem _ hmem, hm⟩
    · next hn =>
      rcases Option.or_eq_some_iff.1 h with h | ⟨-, h⟩
      · obtain ⟨e, he, hd⟩ := Option.map_eq_some_iff.1 h
        simp only [Prod.mk.injEq] at hd
        obtain ⟨rfl, rfl⟩ := hd
        exact ⟨name, List.mem_cons_self, by simpa using hn, acceptWord?_moves he⟩
      · obtain ⟨name', hmem, hm⟩ := ih h
        exact ⟨name', List.mem_cons_of_mem _ hmem, hm⟩

theorem constant?_moves {c d : Cursor} {k : Constant} (h : c.constant? = some (k, d)) : Moves c k.word d := by
  rcases Option.or_eq_some_iff.1 h with h | ⟨-, h⟩ <;> obtain ⟨e, he, hd⟩ := Option.map_eq_some_iff.1 h <;>
    simp only [Prod.mk.injEq] at hd <;> obtain ⟨rfl, rfl⟩ := hd <;> exact acceptWord?_moves he

theorem callWord?_moves {c d : Cursor} {call : Call α} (h : c.callWord? = some (call, d)) :
    Moves c call.name.toList d := by
  obtain ⟨call', -, hc⟩ := List.exists_of_findSome?_eq_some h
  obtain ⟨e, he, hd⟩ := Option.map_eq_some_iff.1 hc
  simp only [Prod.mk.injEq] at hd
  obtain ⟨rfl, rfl⟩ := hd
  exact acceptWord?_moves he

theorem operand?_advances [Scalar α] {g : Grammar} {c d : Cursor} {o : Operand α}
    (h : c.operand? g = .ok (some (o, d))) : Advances c d := by
  unfold operand? at h
  split at h
  · next hv =>
    simp only [Except.ok.injEq, Option.some.injEq, Prod.mk.injEq] at h
    obtain ⟨-, rfl⟩ := h
    obtain ⟨name, -, hn, hm⟩ := slotName?_moves hv
    exact ⟨_, hn, hm⟩
  · split at h
    · next k _ hk =>
      simp only [Except.ok.injEq, Option.some.injEq, Prod.mk.injEq] at h
      obtain ⟨-, rfl⟩ := h
      exact ⟨_, k.word_ne_nil, constant?_moves hk⟩
    · split at h
      · simp at h
      · next hn =>
        simp only [Except.ok.injEq, Option.some.injEq, Prod.mk.injEq] at h
        obtain ⟨-, rfl⟩ := h
        obtain ⟨hm, hw⟩ := numeral?_moves hn
        exact ⟨_, Numeral.text_ne_nil hw, hm⟩
      · simp only [Except.ok.injEq, Option.map_eq_some_iff, Prod.mk.injEq] at h
        obtain ⟨⟨call, e⟩, he, -, rfl⟩ := h
        exact ⟨_, call.name_ne_nil, callWord?_moves he⟩

end Cursor

end Formula
