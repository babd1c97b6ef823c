import Formula.Roots

/-!
The trapezoid rule on equal steps. One undefined sample makes the whole area undefined; infinite samples are left out.
-/

namespace Formula

variable {α : Type} [Scalar α]

/-- Adds the weighted samples `index, …, index + left - 1` to `sum`, those at both ends of the interval by halves.
`none` at a sample that is not a number. -/
def sumSamples (sample : Nat → α) (steps : Nat) : (left index : Nat) → (sum : α) → Option α
  | 0, _, sum => some sum
  | left + 1, index, sum =>
    let y := sample index
    if Scalar.isNaN y then none
    else if Scalar.isInfinite y then sumSamples sample steps left (index + 1) sum
    else
      let weight : α := if index = 0 ∨ index = steps then 0.5 else 1.0
      sumSamples sample steps left (index + 1) (sum + weight * y)

def area (f : α → α) (lower upper : α) (steps : Nat) : α :=
  if steps = 0 || lower == upper then 0.0
  else
    let dx := (upper - lower) / Scalar.ofNat steps
    match sumSamples (fun i => f (gridPoint lower dx i)) steps (steps + 1) 0 0.0 with
    | some sum => sum * dx
    | none => Scalar.nan

end Formula
