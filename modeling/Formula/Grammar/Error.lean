import Formula.Cursor.Numeral

/-!
Why a text is not a formula. Positions count characters from the first one that is not blank.
-/

namespace Formula

inductive ParseError where
  | unexpectedEnd
  | expectedOperand (pos : Nat)
  | expectedOperator (pos : Nat)
  | badMinus (pos : Nat)
  | badCall (name : String) (pos : Nat)
  | missingClosing
  | missingOpening (pos : Nat)
  | strayComma (pos : Nat)
  | trailingInput (pos : Nat)
  | tooDeep (limit : Nat)
  | malformedNumber (e : DanglingPoint)
  deriving DecidableEq

def ParseError.message : ParseError → String
  | unexpectedEnd => "unexpected end of expression"
  | expectedOperand pos => "expected an operand at position " ++ toString pos
  | expectedOperator pos => "expected an operator at position " ++ toString pos
  | badMinus pos => "unary minus can't be doubled or followed by a space (position " ++ toString pos ++ ")"
  | badCall name pos => "malformed call to '" ++ name ++ "' at position " ++ toString pos
  | missingClosing => "missing closing paren"
  | missingOpening pos => "missing opening paren for ')' at position " ++ toString pos
  | strayComma pos => "comma outside of a function call at position " ++ toString pos
  | trailingInput pos => "unexpected input at position " ++ toString pos
  | tooDeep limit => "expression nested deeper than " ++ toString limit ++ " calls"
  | malformedNumber e => e.message

end Formula
