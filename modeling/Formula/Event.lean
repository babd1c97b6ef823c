import Formula.Grammar.Error
import Formula.Newton
import Formula.Text.Blank
import Formula.Text.Quoted

/-!
What is worth a line in a log: a rejected text, an iterate, a sub-interval given up.
-/

namespace Formula

inductive Severity where
  | trace
  | debug
  | warn
  deriving DecidableEq, Repr

def Severity.name : Severity → String
  | trace => "trace"
  | debug => "debug"
  | warn => "warn"

inductive Event (α : Type) where
  | rejected (text : List Char) (e : ParseError)
  | iterate (it : Iterate α)
  | skipped (lower upper : α) (e : NewtonError α)

variable {α : Type}

namespace Event

def severity : Event α → Severity
  | rejected .. => .debug
  | iterate _ => .trace
  | skipped .. => .warn

def line [Scalar α] : Event α → String
  | rejected text e => "rejected expression " ++ String.ofList (Text.quoted text) ++ ": " ++ e.message
  | iterate it => "newton #" ++ toString it.index ++ ": x=" ++ Scalar.text it.x ++ " f'(x)=" ++ Scalar.text it.slope ++
      " next=" ++ Scalar.text it.next
  | skipped lower upper e => "skipping interval [" ++ Scalar.text lower ++ ", " ++ Scalar.text upper ++ "]: " ++ e.message

/-- A reading of `text` leaves one event if it fails, with the text as it was read. -/
def ofReading {β : Type} (text : String) : Except ParseError β → List (Event α)
  | .ok _ => []
  | .error e => [.rejected (Text.trim text.toList) e]

end Event

def NewtonRun.events (r : NewtonRun α) : List (Event α) := r.iterates.map .iterate

end Formula
