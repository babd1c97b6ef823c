import Formula.Token

/-!
Building sequences from sequences: joining two with an operator and replacing variables, inside calls too. Equality of
sequences takes numbers to be equal as the arithmetic does, so not-a-number differs from itself and `0` equals `-0`.
-/

namespace Formula

variable {α : Type}

mutual

def Token.same [BEq α] : Token α → Token α → Bool
  | .number v, .number w => v == w
  | .var s, .var t => s == t
  | .call f arg, .call g arg' => f == g && Sequence.same arg arg'
  | .log base arg, .log base' arg' => Sequence.same base base' && Sequence.same arg arg'
  | .neg, .neg => true
  | .op o, .op p => o == p
  | _, _ => false

def Sequence.same [BEq α] : Sequence α → Sequence α → Bool
  | [], [] => true
  | t :: ts, u :: us => Token.same t u && Sequence.same ts us
  | _, _ => false

end

mutual

def Token.mapVars (f : Slot → Token α) : Token α → Token α
  | .number v => .number v
  | .var s => f s
  | .call g arg => .call g (Sequence.mapVars f arg)
  | .log base arg => .log (Sequence.mapVars f base) (Sequence.mapVars f arg)
  | .neg => .neg
  | .op o => .op o

def Sequence.mapVars (f : Slot → Token α) : Sequence α → Sequence α
  | [] => []
  | t :: ts => Token.mapVars f t :: Sequence.mapVars f ts

end

mutual

/-- How deep calls nest inside each other. -/
def Token.depth : Token α → Nat
  | .call _ arg => Sequence.depth arg + 1
  | .log base arg => max (Sequence.depth base) (Sequence.depth arg) + 1
  | .number _ | .var _ | .neg | .op _ => 0

def Sequence.depth : Sequence α → Nat
  | [] => 0
  | t :: ts => max (Token.depth t) (Sequence.depth ts)

end

namespace Sequence

/-- An empty operand becomes the zero it stands for. -/
def operand [Scalar α] (s : Sequence α) : Sequence α :=
  if s.isEmpty then [.number 0.0] else s

/-- The sequence of `l o r`. -/
def merge [Scalar α] (l r : Sequence α) (o : BinOp) : Sequence α :=
  operand l ++ operand r ++ [.op o]

/-- Fixes the independent variable at `value`; the dependent one takes its place. -/
def substitute (s : Sequence α) (value : α) : Sequence α :=
  mapVars (fun
    | .independent => .number value
    | .dependent => .var .independent) s

theorem mapVars_eq_map (f : Slot → Token α) (s : Sequence α) : mapVars f s = s.map (Token.mapVars f) := by
  induction s with
  | nil => simp [mapVars]
  | cons t ts ih => simp [mapVars, ih]

theorem mapVars_append (f : Slot → Token α) (s t : Sequence α) : mapVars f (s ++ t) = mapVars f s ++ mapVars f t := by
  simp [mapVars_eq_map]

end Sequence

end Formula
