import Formula.Scalar
import Formula.Decimal.Shortest

/-!
Doubles as scalars. Their text is the shortest that reads back.
-/

namespace Formula

instance : Scalar Float where
  decLt := inferInstance
  decLe := inferInstance
  pow := Float.pow
  abs := Float.abs
  ceil := Float.ceil
  ln := Float.log
  lg := Float.log10
  sin := Float.sin
  cos := Float.cos
  tan := Float.tan
  arcsin := Float.asin
  arccos := Float.acos
  arctan := Float.atan
  euler := 2.718281828459045
  pi := 3.141592653589793
  nan := 0.0 / 0.0
  isNaN := Float.isNaN
  isFinite := Float.isFinite
  isNegative x := (Decimal.Binary.ofFloat x).negative
  count x := x.toUInt64.toNat
  text := Decimal.shortestText

end Formula
