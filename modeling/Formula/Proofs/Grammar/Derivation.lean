import Formula.Grammar.Operand
import Formula.Proofs.Term

/-!
The grammar of formulas. A text is cut into flat levels, operands with or without a sign between binary operators, and
the grouping of a flat level into a tree is said apart. Texts are what is left to read: `Derives g b p here rest` reads
`p` off the front of `here`.
-/

namespace Formula

variable {α : Type}

inductive Item (α : Type) where
  | operand (t : Term α)
  | sign
  | op (o : BinOp)

/-- From the tightest to the loosest; a `chain` is a power that no sign ends. -/
inductive Grade where
  | chain
  | power
  | signed
  | product
  | sum

/-- The tree of a flat level. All operators group to the left; a sign takes the whole power behind it, in an exponent
too. -/
inductive Groups : Grade → List (Item α) → Term α → Prop
  | operand (t : Term α) : Groups .chain [.operand t] t
  | chain {v : List (Item α)} {l t : Term α} :
      Groups .chain v l → Groups .chain (v ++ [.op .pow, .operand t]) (.op .pow l t)
  | power {v : List (Item α)} {t : Term α} : Groups .chain v t → Groups .power v t
  | exponent {v w : List (Item α)} {l r : Term α} :
      Groups .chain v l → Groups .power w r → Groups .power (v ++ .op .pow :: .sign :: w) (.op .pow l (.neg r))
  | signed {v : List (Item α)} {t : Term α} : Groups .power v t → Groups .signed v t
  | sign {v : List (Item α)} {t : Term α} : Groups .power v t → Groups .signed (.sign :: v) (.neg t)
  | product {v : List (Item α)} {t : Term α} : Groups .signed v t → Groups .product v t
  | factor {v w : List (Item α)} {l r : Term α} {o : BinOp} : o = .mul ∨ o = .div →
      Groups .product v l → Groups .signed w r → Groups .product (v ++ .op o :: w) (.op o l r)
  | sum {v : List (Item α)} {t : Term α} : Groups .product v t → Groups .sum v t
  | summand {v w : List (Item α)} {l r : Term α} {o : BinOp} : o = .add ∨ o = .sub →
      Groups .sum v l → Groups .product w r → Groups .sum (v ++ .op o :: w) (.op o l r)

/-- The first name, of those not empty, that the text begins with. -/
def Grammar.nameAt? (g : Grammar) (here : List Char) : Option (String × Slot) :=
  g.names.find? fun p => !p.1.isEmpty && p.1.toList.isPrefixOf here

/-- `n` stands at the front of `here`, and no longer numeral does; a point belongs to a numeral only with a digit
behind. -/
structure Numeral.Longest (n : Numeral) (here rest : List Char) : Prop where
  text : here = n.text ++ rest
  whole_ne_nil : n.whole ≠ []
  whole_digits : ∀ c ∈ n.whole, c.isDigit
  fraction_digits : ∀ c ∈ n.fraction, c.isDigit
  digit : ∀ c, rest.head? = some c → c.isDigit = false
  point : n.fraction = [] → rest.head? ≠ some '.'

/-- Operands of one token. A name is sought first; the others begin with different characters, so their order does not
show. -/
inductive Leaf [Scalar α] (g : Grammar) : List Char → Term α → List Char → Prop
  | name {name : String} {slot : Slot} {rest : List Char} :
      g.nameAt? (name.toList ++ rest) = some (name, slot) → Leaf g (name.toList ++ rest) (.var slot) rest
  | euler {rest : List Char} : g.nameAt? ('e' :: rest) = none → Leaf g ('e' :: rest) (.number Scalar.euler) rest
  | pi {rest : List Char} : g.nameAt? ('p' :: 'i' :: rest) = none → Leaf g ('p' :: 'i' :: rest) (.number Scalar.pi) rest
  | numeral {n : Numeral} {here rest : List Char} :
      g.nameAt? here = none → n.Longest here rest → Leaf g here (.number n.value) rest

/-- `here` is `text` with any number of spaces before. -/
def Spaced (here text : List Char) : Prop := ∃ n, here = List.replicate n ' ' ++ text

inductive Phrase (α : Type) where
  | primary (t : Term α)
  | unit (v : List (Item α))
  | expression (v : List (Item α))

/-- The plain grammar leaves open which alternative is meant where a variable's name begins with a space, a sign or a
paren. The ordered one skips all spaces and then prefers the name. -/
inductive Derives [Scalar α] (g : Grammar) (ordered : Bool) : Phrase α → List Char → List Char → Prop
  | leaf {a here b : List Char} {t : Term α} :
      Spaced a here → (ordered → here.head? ≠ some ' ') → Leaf g here t b → Derives g ordered (.primary t) a b
  | call {a b c d : List Char} {f : Func} {v : List (Item α)} {t : Term α} :
      Spaced a (f.name.toList ++ '(' :: b) → g.nameAt? (f.name.toList ++ '(' :: b) = none →
      Derives g ordered (.expression v) b c → Groups .sum v t → Spaced c (')' :: d) →
      Derives g ordered (.primary (.call f t)) a d
  | log {a b c d e k : List Char} {v w : List (Item α)} {t u : Term α} :
      Spaced a ("log".toList ++ '(' :: b) → g.nameAt? ("log".toList ++ '(' :: b) = none →
      Derives g ordered (.expression v) b c → Groups .sum v t → Spaced c (',' :: d) →
      Derives g ordered (.expression w) d e → Groups .sum w u → Spaced e (')' :: k) →
      Derives g ordered (.primary (.log t u)) a k
  | group {a b c d : List Char} {v : List (Item α)} {t : Term α} :
      Spaced a ('(' :: b) → (ordered → g.nameAt? ('(' :: b) = none) →
      Derives g ordered (.expression v) b c → Groups .sum v t → Spaced c (')' :: d) →
      Derives g ordered (.primary t) a d
  | plain {a b : List Char} {t : Term α} :
      Derives g ordered (.primary t) a b → Derives g ordered (.unit [.operand t]) a b
  | minus {a b c : List Char} {t : Term α} :
      Spaced a ('-' :: b) → (ordered → g.nameAt? ('-' :: b) = none) → b.head? ≠ some ' ' →
      Derives g ordered (.primary t) b c → Derives g ordered (.unit [.sign, .operand t]) a c
  | single {a b : List Char} {v : List (Item α)} :
      Derives g ordered (.unit v) a b → Derives g ordered (.expression v) a b
  | more {a b c d : List Char} {v w : List (Item α)} {o : BinOp} :
      Derives g ordered (.expression v) a b → Spaced b (o.symbol :: c) → Derives g ordered (.unit w) c d →
      Derives g ordered (.expression (v ++ .op o :: w)) a d

/-- The whole text is a formula and `t` is its tree. -/
def Grammar.Reads [Scalar α] (g : Grammar) (ordered : Bool) (text : List Char) (t : Term α) : Prop :=
  ∃ v, Derives g ordered (.expression v) text [] ∧ Groups .sum v t

end Formula
