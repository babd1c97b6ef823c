/-!
Reading a double from decimal text: an optional sign, then digits with at most one point among them or at an end and an
optional exponent, or one of the words `inf`, `infinity` and `nan` in any case. No blanks and no digit separators.
-/

namespace Formula.Decimal

/-- Splits off a sign; true for a minus. -/
def sign : List Char → Bool × List Char
  | '-' :: cs => (true, cs)
  | '+' :: cs => (false, cs)
  | cs => (false, cs)

def digits? (cs : List Char) : Option Nat :=
  if !cs.isEmpty && cs.all Char.isDigit then some (Nat.ofDigitChars 10 cs 0) else none

/-- Exponents beyond the range of doubles are cut off first, so no huge power of ten is computed. -/
def nearest (mantissa : Nat) (exponent : Int) : Float :=
  let top := (Nat.toDigits 10 mantissa).length + exponent
  if mantissa = 0 ∨ top < -400 then 0.0
  else if 310 < top then 1.0 / 0.0
  else .ofScientific mantissa (exponent < 0) exponent.natAbs

def exponent? : List Char → Option Int
  | [] => some 0
  | e :: cs =>
    if e == 'e' || e == 'E' then
      let (negative, ds) := sign cs
      (digits? ds).map fun n => if negative then -n else n
    else none

/-- The fraction and what follows it, if there is a point. -/
def fraction : List Char → List Char × List Char
  | '.' :: cs => (cs.takeWhile Char.isDigit, cs.dropWhile Char.isDigit)
  | cs => ([], cs)

def unsigned? (cs : List Char) : Option Float := do
  let whole := cs.takeWhile Char.isDigit
  let (part, rest) := fraction (cs.dropWhile Char.isDigit)
  let mantissa ← digits? (whole ++ part)
  let exponent ← exponent? rest
  return nearest mantissa (exponent - part.length)

def word? (cs : List Char) : Option Float :=
  match String.ofList (cs.map Char.toLower) with
  | "inf" | "infinity" => some (1.0 / 0.0)
  | "nan" => some (0.0 / 0.0)
  | _ => none

def read? (text : String) : Option Float :=
  let (negative, cs) := sign text.toList
  (word? cs <|> unsigned? cs).map fun x => if negative then -x else x

end Formula.Decimal
