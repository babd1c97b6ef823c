/-!
A cursor over a text: the characters read so far, latest first, and those still unread. Operations that may fail to match
answer `none` then, so a failed match never moves the cursor. `Moves c w d` says that `d` is `c` after reading `w`; each
operation that matches moves over exactly what it matched.
-/

namespace Formula

structure Cursor where
  read : List Char
  unread : List Char
  deriving DecidableEq

namespace Cursor

def ofList (text : List Char) : Cursor := ⟨[], text⟩

/-- The whole text, whatever part of it has been read. -/
def text (c : Cursor) : List Char := c.read.reverse ++ c.unread

def pos (c : Cursor) : Nat := c.read.length

def size (c : Cursor) : Nat := c.read.length + c.unread.length

def isEmpty (c : Cursor) : Bool := c.read.isEmpty && c.unread.isEmpty

def atEnd (c : Cursor) : Bool := c.unread.isEmpty

def peek? (c : Cursor) : Option Char := c.unread.head?

def next? : Cursor → Option (Char × Cursor)
  | ⟨_, []⟩ => none
  | ⟨read, x :: unread⟩ => some (x, ⟨x :: read, unread⟩)

def seek? (c : Cursor) (pos : Nat) : Option Cursor :=
  if pos ≤ c.size then some ⟨(c.text.take pos).reverse, c.text.drop pos⟩ else none

/-- The text read since position `start`; a start ahead of the cursor gives the empty text. -/
def lexeme (c : Cursor) (start : Nat) : List Char := (c.read.take (c.pos - start)).reverse

/-- Moves over the longest run of characters that satisfy `p`. -/
def skipWhile (p : Char → Bool) (c : Cursor) : Cursor :=
  ⟨(c.unread.takeWhile p).reverse ++ c.read, c.unread.dropWhile p⟩

def skipSpaces (c : Cursor) : Cursor := c.skipWhile (· == ' ')

def skipRest (c : Cursor) : Cursor := c.skipWhile fun _ => true

def acceptIf? (p : Char → Bool) : Cursor → Option (Char × Cursor)
  | ⟨_, []⟩ => none
  | ⟨read, x :: unread⟩ => if p x then some (x, ⟨x :: read, unread⟩) else none

def accept? (x : Char) (c : Cursor) : Option Cursor := (c.acceptIf? (· == x)).map (·.2)

def acceptWord? : List Char → Cursor → Option Cursor
  | [], c => some c
  | x :: word, c => (c.accept? x).bind (acceptWord? word)

structure Moves (c : Cursor) (w : List Char) (d : Cursor) : Prop where
  read : d.read = w.reverse ++ c.read
  unread : c.unread = w ++ d.unread

namespace Moves

variable {c d e : Cursor} {v w : List Char}

theorem refl (c : Cursor) : Moves c [] c := ⟨rfl, rfl⟩

theorem trans (h : Moves c v d) (h' : Moves d w e) : Moves c (v ++ w) e :=
  ⟨by rw [h'.read, h.read, List.reverse_append, List.append_assoc],
    by rw [h.unread, h'.unread, List.append_assoc]⟩

theorem text_eq (h : Moves c w d) : d.text = c.text := by
  rw [text, text, h.read, h.unread]
  simp

theorem pos_eq (h : Moves c w d) : d.pos = c.pos + w.length := by
  rw [pos, pos, h.read, List.length_append, List.length_reverse, Nat.add_comm]

theorem unread_length (h : Moves c w d) : c.unread.length = w.length + d.unread.length := by
  rw [h.unread, List.length_append]

theorem lexeme_eq (h : Moves c w d) : d.lexeme c.pos = w := by
  have hp : d.pos - c.pos = w.reverse.length := by
    rw [h.pos_eq, List.length_reverse, Nat.add_sub_cancel_left]
  rw [lexeme, hp, h.read, List.take_left, List.reverse_reverse]

end Moves

/-- Reads at least one character. -/
def Advances (c d : Cursor) : Prop := ∃ w, w ≠ [] ∧ Moves c w d

theorem Moves.advances {c d e : Cursor} {w : List Char} (h : Moves c w d) (h' : Advances d e) : Advances c e := by
  obtain ⟨v, hv, hm⟩ := h'
  exact ⟨w ++ v, by simp [hv], h.trans hm⟩

namespace Advances

variable {c d e : Cursor}

theorem trans (h : Advances c d) (h' : Advances d e) : Advances c e := by
  obtain ⟨w, -, hm⟩ := h
  exact hm.advances h'

theorem text_eq (h : Advances c d) : d.text = c.text := by
  obtain ⟨w, -, hm⟩ := h
  exact hm.text_eq

theorem unread_lt (h : Advances c d) : d.unread.length < c.unread.length := by
  obtain ⟨w, hw, hm⟩ := h
  have := List.length_pos_iff.2 hw
  have := hm.unread_length
  omega

end Advances

variable {c d : Cursor}

theorem size_eq (c : Cursor) : c.size = c.text.length := by
  rw [size, text, List.length_append, List.length_reverse]

theorem pos_le_size (c : Cursor) : c.pos ≤ c.size := Nat.le_add_right _ _

theorem drop_pos (c : Cursor) : c.text.drop c.pos = c.unread :=
  List.drop_left' List.length_reverse

theorem getElem?_pos (c : Cursor) : c.text[c.pos]? = c.unread.head? := by rw [← List.head?_drop, drop_pos]

theorem seek?_eq_some {pos : Nat} (h : c.seek? pos = some d) : d.text = c.text ∧ d.pos = pos := by
  simp only [seek?, Option.ite_none_right_eq_some, Option.some.injEq] at h
  obtain ⟨hp, rfl⟩ := h
  rw [size_eq] at hp
  exact ⟨by simp [text], by simp only [Cursor.pos, List.length_reverse, List.length_take]; omega⟩

theorem skipWhile_moves (p : Char → Bool) (c : Cursor) : Moves c (c.unread.takeWhile p) (c.skipWhile p) :=
  ⟨rfl, List.takeWhile_append_dropWhile.symm⟩

theorem acceptIf?_moves {p : Char → Bool} {x : Char} (h : c.acceptIf? p = some (x, d)) : Moves c [x] d ∧ p x := by
  obtain ⟨read, _ | ⟨y, unread⟩⟩ := c
  · simp [acceptIf?] at h
  · simp only [acceptIf?, Option.ite_none_right_eq_some, Option.some.injEq, Prod.mk.injEq] at h
    obtain ⟨hp, rfl, rfl⟩ := h
    exact ⟨⟨rfl, rfl⟩, hp⟩

theorem accept?_moves {x : Char} (h : c.accept? x = some d) : Moves c [x] d := by
  obtain ⟨⟨y, e⟩, he, rfl⟩ := Option.map_eq_some_iff.1 h
  obtain ⟨hm, hy⟩ := acceptIf?_moves he
  rwa [← eq_of_beq hy]

theorem acceptWord?_moves {word : List Char} (h : c.acceptWord? word = some d) : Moves c word d := by
  induction word generalizing c with
  | nil =>
    rw [← Option.some.inj h]
    exact .refl c
  | cons x word ih =>
    obtain ⟨e, he, hd⟩ := Option.bind_eq_some_iff.1 h
    exact (accept?_moves he).trans (ih hd)

end Cursor

end Formula
