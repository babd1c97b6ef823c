import Formula.Cursor.Numeral
import Formula.Symbol

/-!
The moves of a cursor as data, so that a run over a text is a list of them.
-/

namespace Formula.Cursor

inductive Operation where
  | next
  | peek
  | size
  | isEmpty
  | atEnd
  | seek (pos : Nat)
  | lexeme (start : Nat)
  | accept (x : Char)
  | acceptAny (set : List Char)
  | acceptWord (word : List Char)
  | skipAll (set : List Char)
  | skipSpaces
  | rest
  | restAhead
  | numeral
  | symbol

inductive Answer where
  | char (x : Option Char)
  | flag (b : Bool)
  | count (n : Nat)
  | text (cs : List Char)
  | numeral (n : Except DanglingPoint (Option Numeral))
  | symbol (s : Option Symbol)

/-- Takes the cursor behind a match, or leaves it where it was. -/
def behind {β : Type} (c : Cursor) (found : Option (β × Cursor)) : Option β × Cursor :=
  match found with
  | some (x, d) => (some x, d)
  | none => (none, c)

def moved (c : Cursor) (found : Option Cursor) : Answer × Cursor :=
  (.flag found.isSome, found.getD c)

def perform (c : Cursor) : Operation → Answer × Cursor
  | .next => let (x, d) := c.behind c.next?; (.char x, d)
  | .peek => (.char c.peek?, c)
  | .size => (.count c.size, c)
  | .isEmpty => (.flag c.isEmpty, c)
  | .atEnd => (.flag c.atEnd, c)
  | .seek pos => c.moved (c.seek? pos)
  | .lexeme start => (.text (c.lexeme start), c)
  | .accept x => let (y, d) := c.behind (c.acceptIf? (· == x)); (.char y, d)
  | .acceptAny set => let (y, d) := c.behind (c.acceptIf? set.contains); (.char y, d)
  | .acceptWord word => c.moved (c.acceptWord? word)
  | .skipAll set => (.flag (c.acceptIf? set.contains).isSome, c.skipWhile set.contains)
  | .skipSpaces => (.flag (!c.skipSpaces.atEnd), c.skipSpaces)
  | .rest => (.text c.unread, c.skipRest)
  | .restAhead => (.text c.unread, c)
  | .numeral =>
    match c.numeral? with
    | .ok found => let (n, d) := c.behind found; (.numeral (.ok n), d)
    | .error e => (.numeral (.error e), c)
  | .symbol => let (s, d) := c.skipSpaces.behind c.skipSpaces.symbolHere?; (.symbol s, d)

/-- Each answer with the position after it. -/
def trace : Cursor → List Operation → List (Answer × Nat)
  | _, [] => []
  | c, o :: os => let (a, d) := c.perform o; (a, d.pos) :: trace d os

end Formula.Cursor
