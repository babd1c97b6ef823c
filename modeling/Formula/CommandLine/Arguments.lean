import Formula.Decimal.Reading

/-!
Arguments of one command: positional ones in order, and settings as `--name value` or `--name=value`. `--` ends the
settings. What looks like an unknown setting is a positional argument while one is still missing, so a formula may start
with a minus sign. A value is read where it stands, so a bad one counts before a help flag after it.
-/

namespace Formula.CommandLine

inductive Value where
  | decimal (x : Float)
  | count (n : Nat)

namespace Value

def decimal? : Value → Option Float
  | decimal x => some x
  | count _ => none

def count? : Value → Option Nat
  | decimal _ => none
  | count n => some n

end Value

/-- A count has 64 bits and may have a plus sign. -/
inductive Kind where
  | decimal
  | count
  deriving DecidableEq

namespace Kind

def count? (text : String) : Option Nat :=
  let cs := match text.toList with
    | '+' :: cs => cs
    | cs => cs
  (Decimal.digits? cs).filter (· < UInt64.size)

def read? : Kind → String → Option Value
  | decimal, text => (Decimal.read? text).map .decimal
  | count, text => (count? text).map .count

end Kind

structure Setting where
  name : String
  kind : Kind
  /-- Takes the next argument as its value even if that starts with a hyphen. -/
  anyValue : Bool := false

/-- How many positional arguments a command takes, and which settings. -/
structure Form where
  positionals : Nat
  settings : List Setting

/-- Why no command comes of the arguments. -/
inductive Stop where
  | usage
  | help
  deriving DecidableEq

structure Given where
  positionals : List String
  values : List (String × Value)

structure Reading where
  /-- Positional arguments so far, latest first. -/
  positionals : List String := []
  values : List (String × Value) := []
  /-- A setting that still lacks its value. -/
  waiting : Option Setting := none

namespace Reading

def takesMore (form : Form) (r : Reading) : Bool := r.positionals.length < form.positionals

/-- Neither a second value nor one of another kind. -/
def record (r : Reading) (s : Setting) (text : String) : Except Stop Reading :=
  match r.values.lookup s.name, s.kind.read? text with
  | none, some value => .ok { r with values := (s.name, value) :: r.values, waiting := none }
  | _, _ => .error .usage

def positional (form : Form) (r : Reading) (arg : String) : Except Stop Reading :=
  if r.takesMore form then .ok { r with positionals := arg :: r.positionals } else .error .usage

/-- A value goes to the setting that waits for one. -/
def plain (form : Form) (r : Reading) (arg : String) : Except Stop Reading :=
  match r.waiting with
  | some s => r.record s arg
  | none => r.positional form arg

/-- A new setting may not begin while another one waits. -/
def option (r : Reading) (next : Except Stop Reading) : Except Stop Reading :=
  if r.waiting.isSome then .error .usage else next

def long (form : Form) (r : Reading) (arg : String) (name : List Char) (attached : Option (List Char)) :
    Except Stop Reading :=
  match form.settings.find? (·.name == String.ofList name) with
  | some s =>
    r.option <| match attached with
      | some value => r.record s (String.ofList value)
      | none => .ok { r with waiting := some s }
  | none =>
    if name == ['h', 'e', 'l', 'p'] then r.option (.error (if attached.isSome then .usage else .help))
    else if r.takesMore form then r.plain form arg
    else .error .usage

def short (form : Form) (r : Reading) (arg : String) (first : Char) (others : List Char) : Except Stop Reading :=
  if r.takesMore form && (first :: others).any (· != 'h') then r.plain form arg
  else r.option (.error (if first == 'h' then .help else .usage))

end Reading

/-- Cuts `name=value` in two. -/
def cutName (cs : List Char) : List Char × Option (List Char) :=
  (cs.takeWhile (· != '='), (cs.dropWhile (· != '=')).tail?)

namespace Reading

def argument (form : Form) (r : Reading) (arg : String) : Except Stop Reading :=
  match arg.toList with
  | '-' :: '-' :: cs => let (name, value) := cutName cs; r.long form arg name value
  | '-' :: c :: cs => r.short form arg c cs
  | _ => r.plain form arg

/-- The setting that waits takes whatever comes next. -/
def takesAny (r : Reading) : Bool := r.waiting.any Setting.anyValue

def given (r : Reading) : Except Stop Given :=
  if r.waiting.isSome then .error .usage else .ok ⟨r.positionals.reverse, r.values⟩

def run (form : Form) (r : Reading) : List String → Except Stop Given
  | [] => r.given
  | arg :: args =>
    if r.takesAny then do (← r.plain form arg).run form args
    else if arg == "--" then do (← args.foldlM (positional form) r).given
    else do (← r.argument form arg).run form args

end Reading

def Form.read (form : Form) (args : List String) : Except Stop Given := Reading.run form {} args

end Formula.CommandLine
