import Formula.Decimal.Ratio
import Formula.Decimal.Scientific

/-!
The fewest digits that read back as the same double. Every real nearer to `m · 2 ^ q` than to its neighbours reads back as
it, the two half-way points too when `m` is even; the digits are sought on decimal grids of 1, 2, … digits in turn.
-/

namespace Formula.Decimal

/-- The reals that read back as one double, in units of `2 ^ exponent`. -/
structure Neighbourhood where
  exponent : Int
  lower : Nat
  value : Nat
  upper : Nat
  closed : Bool

namespace Neighbourhood

/-- The gap below a power of two is half the gap above it, save at the bottom of the range. -/
def of (mantissa : Nat) (exponent : Int) : Neighbourhood :=
  { exponent := exponent - 2
    lower := if mantissa = Nat.pow 2 52 ∧ -1074 < exponent then 4 * mantissa - 1 else 4 * mantissa - 2
    value := 4 * mantissa
    upper := 4 * mantissa + 2
    closed := mantissa % 2 == 0 }

def ratio (n : Neighbourhood) (m : Nat) : Ratio := .scaled m 2 n.exponent

def contains (n : Neighbourhood) (s : Scientific) : Bool :=
  let r := Ratio.scaled s.digits 10 s.exponent
  let low := (n.ratio n.lower).cmp r
  let high := r.cmp (n.ratio n.upper)
  if n.closed then low != .gt && high != .gt else low == .lt && high == .lt

/-- The point of the decimal grid `10 ^ k` that reads back as the double and lies nearest to it, of two equally near
the upper one. -/
def onGrid? (n : Neighbourhood) (k : Int) : Option Scientific :=
  let r := (n.ratio n.value).shift (-k)
  let below : Scientific := ⟨r.floor, k⟩
  let above : Scientific := ⟨r.floor + 1, k⟩
  match n.contains below, n.contains above with
  | true, true => some (if r.compareHalf == .lt then below else above)
  | true, false => some below
  | false, true => some above
  | false, false => none

/-- Tries the grid `10 ^ k` and `fuel` finer ones. -/
def search (n : Neighbourhood) : (fuel : Nat) → (k : Int) → Scientific
  | 0, k => ⟨((n.ratio n.value).shift (-k)).round, k⟩
  | fuel + 1, k => (n.onGrid? k).getD (n.search fuel (k - 1))

end Neighbourhood

/-- Seventeen digits tell any two doubles apart, so the search ends by then. -/
def shortest (mantissa : Nat) (exponent : Int) : Scientific :=
  (Neighbourhood.of mantissa exponent).search 17 (Ratio.scaled mantissa 2 exponent).decade

def shortestText (x : Float) : String :=
  (Binary.ofFloat x).text fun m q => if m = 0 then ['0'] else (shortest m q).positional

end Formula.Decimal
