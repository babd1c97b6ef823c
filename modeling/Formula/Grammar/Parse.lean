import Formula.Grammar.Machine
import Formula.Text.Blank

/-!
Reading a whole text. Blanks around it do not count, and a blank text is the empty sequence.
-/

namespace Formula.Grammar

variable {α : Type} [Scalar α]

/-- Whether a complete expression may end at the cursor. -/
def complete (s : Sequence α) (rest : Cursor) : Except ParseError (Sequence α) :=
  match rest.peek? with
  | none => .ok s
  | some ')' => .error (.missingOpening rest.pos)
  | some ',' => .error (.strayComma rest.pos)
  | some _ => .error (.trailingInput rest.pos)

def parseChars (g : Grammar) (cs : List Char) : Except ParseError (Sequence α) :=
  let body := Text.trim cs
  if body.isEmpty then .ok []
  else do
    let (s, rest) ← Machine.run g (.start (.ofList body))
    complete s rest

def parse (g : Grammar) (text : String) : Except ParseError (Sequence α) := g.parseChars text.toList

end Formula.Grammar
