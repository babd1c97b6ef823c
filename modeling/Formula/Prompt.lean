import Formula.Grammar.Parse
import Formula.Evaluation
import Formula.Rendering

/-!
The prompt: each line is a formula in `x` to evaluate, or `x = formula`, which gives `x` a new value for the lines after
it. Lines that fail leave `x` as it is.
-/

namespace Formula.Prompt

variable {α : Type} [Scalar α]

def grammar : Grammar := .oneVariable "x"

/-- What stands behind `x =`, if the line assigns. -/
def assigned? : List Char → Option (List Char)
  | 'x' :: rest =>
    match Text.trimStart rest with
    | '=' :: rhs => some rhs
    | _ => none
  | _ => none

def complaint (e : ParseError) : String := "Parse error: " ++ e.message

def assign (x : α) (rhs : List Char) : α × String :=
  match grammar.parseChars rhs with
  | .error e => (x, complaint e)
  | .ok s =>
    let value := s.eval x
    if Scalar.isNaN value then (x, "Undefined at x = " ++ Scalar.text x) else (value, "x = " ++ Scalar.text value)

def evaluate (x : α) (line : List Char) : String :=
  match grammar.parseChars line with
  | .error e => complaint e
  | .ok s => Sequence.text s ++ " = " ++ Scalar.text (s.eval x)

/-- The new value of `x` and the line printed; a blank line prints none. -/
def respond (x : α) (line : List Char) : α × Option String :=
  match Text.trim line with
  | [] => (x, none)
  | body =>
    match assigned? body with
    | some rhs => let (x, out) := assign x rhs; (x, some out)
    | none => (x, some (evaluate x body))

/-- A whole session: the last value of `x` and all lines printed. -/
def session (x : α) : List (List Char) → α × List String
  | [] => (x, [])
  | line :: lines =>
    let (x, out) := respond x line
    let (x, outs) := session x lines
    (x, out.toList ++ outs)

/-- The lines a whole input prints. Line ends are blank, so cutting at line feeds is enough. -/
def transcript (x : α) (input : String) : List String :=
  (session x ((input.splitOn "\n").map String.toList)).2

end Formula.Prompt
