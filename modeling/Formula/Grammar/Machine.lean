import Formula.Grammar.Operand
import Formula.Symbol

/-!
Infix to postfix by precedence, as a machine of single steps. Each level holds one (sub)expression; a call suspends the
level it stands in until its argument is read. Every step but the last reads at least one character, so a run ends.
-/

namespace Formula

/-- What waits for the operand behind it. -/
inductive Pending where
  | paren
  | neg
  | op (o : BinOp)
  deriving DecidableEq

def Pending.precedence : Pending → Nat
  | paren => 0
  | neg => signPrecedence
  | op o => o.precedence

def Pending.token? {α : Type} : Pending → Option (Token α)
  | paren => none
  | neg => some .neg
  | op o => some (.op o)

/-- Output and pending entries have the latest first; `opened` counts the parens among the pending. -/
structure Level (α : Type) where
  output : List (Token α) := []
  pending : List Pending := []
  opened : Nat := 0

namespace Level

variable {α : Type}

/-- Moves pending entries to the output, a paren vanishing on the way. -/
def emit (output : List (Token α)) (ps : List Pending) : List (Token α) :=
  (ps.filterMap Pending.token?).reverse ++ output

def push (l : Level α) (t : Token α) : Level α := { l with output := t :: l.output }

def minus (l : Level α) : Level α := { l with pending := .neg :: l.pending }

def openParen (l : Level α) : Level α := { l with pending := .paren :: l.pending, opened := l.opened + 1 }

def closeParen (l : Level α) : Level α where
  output := emit l.output (l.pending.takeWhile (· != .paren))
  pending := (l.pending.dropWhile (· != .paren)).tail
  opened := l.opened - 1

/-- Operators of equal precedence group to the left. -/
def operator (l : Level α) (o : BinOp) : Level α :=
  let binds : Pending → Bool := fun p => o.precedence ≤ p.precedence
  { l with
    output := emit l.output (l.pending.takeWhile binds)
    pending := .op o :: l.pending.dropWhile binds }

def finish (l : Level α) : Sequence α := (emit l.output l.pending).reverse

end Level

structure Suspended (α : Type) where
  level : Level α
  call : Call α

/-- Whether an operand or an operator comes next, and in the first case whether a sign stands right before. -/
inductive Expecting where
  | operand (afterSign : Bool)
  | operator
  deriving DecidableEq

structure Machine (α : Type) where
  cursor : Cursor
  level : Level α
  outer : List (Suspended α)
  expecting : Expecting

inductive Progress (α : Type) where
  | next (m : Machine α)
  | done (s : Sequence α) (rest : Cursor)
  | failed (e : ParseError)

namespace Machine

variable {α : Type}

def start (c : Cursor) : Machine α := ⟨c, {}, [], .operand false⟩

/-- Begins the argument of a call behind its delimiter. -/
def enter (g : Grammar) (c : Cursor) (delimiter : Char) (level : Level α) (call : Call α)
    (outer : List (Suspended α)) : Progress α :=
  match c.accept? delimiter with
  | none => .failed (.badCall call.name c.pos)
  | some d =>
    if g.maxDepth < outer.length + 1 then .failed (.tooDeep g.maxDepth)
    else .next ⟨d, {}, ⟨level, call⟩ :: outer, .operand false⟩

/-- Ends a call behind its closing paren. -/
def resume (c : Cursor) (level : Level α) (call : Call α) (t : Token α) (outer : List (Suspended α)) : Progress α :=
  match c.accept? ')' with
  | none => .failed (.badCall call.name c.pos)
  | some d => .next ⟨d, level.push t, outer, .operator⟩

/-- The current level is complete as `s` and the cursor stands behind it. -/
def leave (g : Grammar) (c : Cursor) (s : Sequence α) : List (Suspended α) → Progress α
  | [] => .done s c
  | ⟨level, .unary f⟩ :: outer => resume c level (.unary f) (.call f s) outer
  | ⟨level, .logBase⟩ :: outer => enter g c ',' level (.logArgument s) outer
  | ⟨level, .logArgument base⟩ :: outer => resume c level (.logArgument base) (.log base s) outer

def stepOperand [Scalar α] (g : Grammar) (m : Machine α) (afterSign : Bool) : Progress α :=
  let c := m.cursor.skipSpaces
  match c.operand? g with
  | .error e => .failed e
  | .ok (some (.leaf t, d)) => .next { m with cursor := d, level := m.level.push t, expecting := .operator }
  | .ok (some (.word call, d)) => enter g d '(' m.level call m.outer
  | .ok none =>
    match c.symbolHere? with
    | some (.op .sub, d) =>
      if afterSign || d.peek? == some ' ' then .failed (.badMinus c.pos)
      else .next { m with cursor := d, level := m.level.minus, expecting := .operand true }
    | some (.opening, d) => .next { m with cursor := d, level := m.level.openParen, expecting := .operand false }
    | some _ => .failed (.expectedOperand c.pos)
    | none => .failed (if c.atEnd then .unexpectedEnd else .expectedOperand c.pos)

def stepOperator (g : Grammar) (m : Machine α) : Progress α :=
  let c := m.cursor.skipSpaces
  match c.symbolHere? with
  | some (.closing, d) =>
    if m.level.opened = 0 then leave g c m.level.finish m.outer
    else .next { m with cursor := d, level := m.level.closeParen }
  | some (.comma, _) =>
    if m.level.opened = 0 then leave g c m.level.finish m.outer else .failed (.strayComma c.pos)
  | some (.op o, d) => .next { m with cursor := d, level := m.level.operator o, expecting := .operand false }
  | some (.opening, d) => .failed (.expectedOperator d.pos)
  | none => .failed (.expectedOperator c.pos)

def step [Scalar α] (g : Grammar) (m : Machine α) : Progress α :=
  match m.expecting with
  | .operand afterSign => if m.cursor.atEnd then .failed .unexpectedEnd else stepOperand g m afterSign
  | .operator =>
    if m.cursor.atEnd then
      if m.level.opened = 0 then leave g m.cursor m.level.finish m.outer else .failed .missingClosing
    else stepOperator g m

theorem accept?_advances {c d : Cursor} {x : Char} (h : c.accept? x = some d) : c.Advances d :=
  ⟨[x], by simp, Cursor.accept?_moves h⟩

theorem symbol_advances {c d : Cursor} {s : Symbol} (h : c.symbolHere? = some (s, d)) : c.Advances d :=
  ⟨[s.char], by simp, Cursor.symbolHere?_moves h⟩

theorem skipSpaces_moves (c : Cursor) : ∃ w, c.Moves w c.skipSpaces := ⟨_, Cursor.skipWhile_moves _ c⟩

theorem enter_advances {g : Grammar} {c : Cursor} {x : Char} {l : Level α} {call : Call α} {outer : List (Suspended α)}
    {m : Machine α} (h : enter g c x l call outer = .next m) : c.Advances m.cursor := by
  unfold enter at h
  split at h
  · simp at h
  · next hd =>
    split at h
    · simp at h
    · simp only [Progress.next.injEq] at h
      subst h
      exact accept?_advances hd

theorem resume_advances {c : Cursor} {l : Level α} {call : Call α} {t : Token α} {outer : List (Suspended α)}
    {m : Machine α} (h : resume c l call t outer = .next m) : c.Advances m.cursor := by
  unfold resume at h
  split at h
  · simp at h
  · next hd =>
    simp only [Progress.next.injEq] at h
    subst h
    exact accept?_advances hd

theorem leave_advances {g : Grammar} {c : Cursor} {s : Sequence α} {outer : List (Suspended α)} {m : Machine α}
    (h : leave g c s outer = .next m) : c.Advances m.cursor := by
  unfold leave at h
  split at h
  · simp at h
  · exact resume_advances h
  · exact enter_advances h
  · exact resume_advances h

theorem stepOperand_advances [Scalar α] {g : Grammar} {m n : Machine α} {afterSign : Bool}
    (h : stepOperand g m afterSign = .next n) : m.cursor.Advances n.cursor := by
  obtain ⟨w, hm⟩ := skipSpaces_moves m.cursor
  refine hm.advances ?_
  unfold stepOperand at h
  simp only at h
  split at h
  · simp at h
  · next hd =>
    simp only [Progress.next.injEq] at h
    subst h
    exact Cursor.operand?_advances hd
  · next hd => exact (Cursor.operand?_advances hd).trans (enter_advances h)
  · split at h
    · next hd =>
      split at h
      · simp at h
      · simp only [Progress.next.injEq] at h
        subst h
        exact symbol_advances hd
    · next hd =>
      simp only [Progress.next.injEq] at h
      subst h
      exact symbol_advances hd
    · simp at h
    · simp at h

theorem stepOperator_advances {g : Grammar} {m n : Machine α} (h : stepOperator g m = .next n) :
    m.cursor.Advances n.cursor := by
  obtain ⟨w, hm⟩ := skipSpaces_moves m.cursor
  refine hm.advances ?_
  unfold stepOperator at h
  simp only at h
  split at h
  · next hd =>
    split at h
    · exact leave_advances h
    · simp only [Progress.next.injEq] at h
      subst h
      exact symbol_advances hd
  · split at h
    · exact leave_advances h
    · simp at h
  · next hd =>
    simp only [Progress.next.injEq] at h
    subst h
    exact symbol_advances hd
  · simp at h
  · simp at h

theorem step_advances [Scalar α] {g : Grammar} {m n : Machine α} (h : step g m = .next n) :
    m.cursor.Advances n.cursor := by
  unfold step at h
  split at h
  · split at h
    · simp at h
    · exact stepOperand_advances h
  · split at h
    · split at h
      · exact leave_advances h
      · simp at h
    · exact stepOperator_advances h

/-- Runs to the end of the text, or to the `)` or `,` at the outermost level that belongs to no paren or call. -/
def run [Scalar α] (g : Grammar) (m : Machine α) : Except ParseError (Sequence α × Cursor) :=
  match _h : step g m with
  | .next n => run g n
  | .done s rest => .ok (s, rest)
  | .failed e => .error e
termination_by m.cursor.unread.length
decreasing_by exact (step_advances _h).unread_lt

end Machine

end Formula
