import Formula.CommandLine.Arguments
import Formula.Roots
import Formula.Scalar.Double

/-!
What the arguments ask for. A setting that is not given has its standard value; the binding of an equation has none.
-/

namespace Formula.CommandLine

inductive Command where
  | evaluate (text : String) (x : Float)
  | roots (f g : String) (lower upper : Float) (finder : Finder Float)
  | area (text : String) (lower upper : Float) (steps : Nat)
  | equation (lhs rhs : String) (x lower upper : Float)

inductive Request where
  | command (c : Command)
  | prompt
  | version

def range : List Setting := [⟨"from", .decimal, true⟩, ⟨"to", .decimal, true⟩]

namespace Given

def decimal? (g : Given) (name : String) : Option Float := (g.values.lookup name).bind Value.decimal?

def decimal (g : Given) (name : String) (standard : Float) : Float := (g.decimal? name).getD standard

def count (g : Given) (name : String) (standard : Nat) : Nat := ((g.values.lookup name).bind Value.count?).getD standard

def lower (g : Given) : Float := g.decimal "from" (-10.0)

def upper (g : Given) : Float := g.decimal "to" 10.0

def finder (g : Given) : Finder Float :=
  let standard : Finder Float := .standard
  { intervals := g.count "intervals" standard.intervals
    accuracy := g.decimal "accuracy" standard.accuracy
    maxIterations := g.count "max-iterations" standard.maxIterations }

end Given

def readEvaluate (args : List String) : Except Stop Command := do
  let g ← Form.read ⟨1, [⟨"at", .decimal, true⟩]⟩ args
  match g.positionals with
  | [text] => return .evaluate text (g.decimal "at" 0.0)
  | _ => throw .usage

def readRoots (args : List String) : Except Stop Command := do
  let own := [⟨"intervals", .count, false⟩, ⟨"accuracy", .decimal, false⟩, ⟨"max-iterations", .count, false⟩]
  let g ← Form.read ⟨2, range ++ own⟩ args
  match g.positionals with
  | [first, second] => return .roots first second g.lower g.upper g.finder
  | _ => throw .usage

def readArea (args : List String) : Except Stop Command := do
  let g ← Form.read ⟨1, range ++ [⟨"steps", .count, false⟩]⟩ args
  match g.positionals with
  | [text] => return .area text g.lower g.upper (g.count "steps" 1000)
  | _ => throw .usage

def readEquation (args : List String) : Except Stop Command := do
  let g ← Form.read ⟨2, ⟨"at", .decimal, true⟩ :: range⟩ args
  match g.positionals, g.decimal? "at" with
  | [lhs, rhs], some x => return .equation lhs rhs x g.lower g.upper
  | _, _ => throw .usage

def command? : String → Option (List String → Except Stop Command)
  | "eval" => some readEvaluate
  | "roots" => some readRoots
  | "area" => some readArea
  | "implicit" => some readEquation
  | _ => none

/-- `help` may name one command. -/
def isTopic : List String → Bool
  | [] => true
  | [topic] => (command? topic).isSome || topic == "help"
  | _ => false

/-- What stands where a command is missing. -/
def readOption (arg : String) (args : List String) : Except Stop Request :=
  match arg.toList with
  | '-' :: 'V' :: _ => .ok .version
  | '-' :: 'h' :: _ => .error .help
  | _ =>
    if arg == "--version" then .ok .version
    else if arg == "--help" || (arg == "help" && isTopic args) then .error .help
    else .error .usage

/-- Without any argument there is a prompt. -/
def Request.read : List String → Except Stop Request
  | [] | ["--"] => .ok .prompt
  | arg :: args =>
    match command? arg with
    | some read => (read args).map .command
    | none => readOption arg args

end Formula.CommandLine
