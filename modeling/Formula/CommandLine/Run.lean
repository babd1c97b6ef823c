import Formula.CommandLine.Request
import Formula.Curve
import Formula.Decimal.Rounded
import Formula.Equation
import Formula.Prompt
import Formula.Scalar.Double

/-!
What a run of the program prints, and its exit code: 0, 1 for a formula that cannot be read or an area that is undefined,
2 for arguments that ask for nothing.
-/

namespace Formula.CommandLine

structure Outcome where
  code : Nat
  stdout : String := ""
  stderr : String := ""

def printed (lines : List String) : Outcome :=
  { code := 0, stdout := String.join (lines.map (·.push '\n')) }

def failed (message : String) : Outcome := { code := 1, stderr := "Error: " ++ message ++ "\n" }

def unreadable (text : String) (e : ParseError) : Outcome :=
  failed ("can't parse '" ++ text ++ "'\n\nCaused by:\n    " ++ e.message)

def usageError : Outcome :=
  { code := 2, stderr := "usage: polaca [eval EXPR | roots F G | area EXPR | implicit LHS RHS --at X] [SETTINGS]\n" }

def interval (lower upper : Float) : String := "[" ++ Scalar.text lower ++ ", " ++ Scalar.text upper ++ "]"

def pointLine (x y : Float) : String := "x: " ++ Decimal.fixedText 5 x ++ ", y: " ++ Decimal.fixedText 5 y

/-- Goes on with the curve of a text, or says why there is none. -/
def withCurve (text : String) (k : Curve Float → Outcome) : Outcome :=
  match Curve.parse text with
  | .ok c => k c
  | .error e => unreadable text e

def Command.run : Command → Outcome
  | evaluate text x => withCurve text fun c => printed [c.render ++ " = " ++ Scalar.text (c.eval x)]
  | roots f g lower upper finder =>
    withCurve f fun a => withCurve g fun b =>
      match finder.intersections a.sequence b.sequence lower upper with
      | [] => printed ["no intersections in " ++ interval lower upper]
      | ps => printed (ps.map fun p => pointLine p.x p.y)
  | area text lower upper steps =>
    withCurve text fun c =>
      let value := c.area lower upper steps
      if Scalar.isNaN value then failed (c.source ++ " is undefined somewhere in " ++ interval lower upper)
      else printed [Decimal.fixedText 5 value]
  | equation lhs rhs x lower upper =>
    match Equation.parse lhs rhs with
    | .error e => unreadable (lhs ++ " = " ++ rhs) e
    | .ok e => printed ((e.valuesAt .standard x lower upper).map (pointLine x))

def run (args : List String) (stdin : String) : Outcome :=
  match Request.read args with
  | .ok (.command c) => c.run
  | .ok .prompt => printed (Prompt.transcript (0.0 : Float) stdin)
  | .ok .version => printed ["polaca 0.1.0"]
  | .error .usage => usageError
  | .error .help => { usageError with code := 0, stdout := usageError.stderr, stderr := "" }

end Formula.CommandLine
