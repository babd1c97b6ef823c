import Formula.CommandLine.Run

/-!
The program. The prompt answers line by line; every other request is one outcome.
-/

open Formula

partial def converse (x : Float) : IO Unit := do
  let line ← (← IO.getStdin).getLine
  unless line.isEmpty do
    let (x, answer) := Prompt.respond x line.toList
    answer.forM IO.println
    converse x

def main (args : List String) : IO UInt32 := do
  match CommandLine.Request.read args with
  | .ok .prompt =>
    converse 0.0
    return 0
  | _ =>
    let outcome := CommandLine.run args ""
    IO.print outcome.stdout
    IO.eprint outcome.stderr
    return outcome.code.toUInt32
