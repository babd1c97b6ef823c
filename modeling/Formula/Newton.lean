import Formula.Scalar

/-!
Newton's iteration with a central difference for the derivative. A run keeps every iterate, so what it did can be told
afterwards.
-/

namespace Formula

inductive NewtonError (α : Type) where
  | noConvergence (iterations : Nat) (x : α)
  /-- The iterate after `x` was not finite. -/
  | diverged (x : α)

def NewtonError.message {α : Type} [Scalar α] : NewtonError α → String
  | noConvergence n x => "didn't converge after " ++ toString n ++ " iterations, x=" ++ Scalar.text x
  | diverged x => "diverged, last finite x=" ++ Scalar.text x

structure Iterate (α : Type) where
  index : Nat
  x : α
  slope : α
  next : α

structure NewtonRun (α : Type) where
  iterates : List (Iterate α)
  outcome : Except (NewtonError α) α

variable {α : Type} [Scalar α]

def centralSlope (f : α → α) (step x : α) : α := (f (x + step) - f (x - step)) / (2.0 * step)

def Iterate.of (f : α → α) (accuracy : α) (index : Nat) (x : α) : Iterate α :=
  let slope := centralSlope f accuracy x
  ⟨index, x, slope, x - f x / slope⟩

/-- Goes on for `left` iterations from the one numbered `index`; `before` has the latest iterate first. -/
def NewtonRun.proceed (f : α → α) (accuracy : α) :
    (left index : Nat) → (x : α) → (before : List (Iterate α)) → NewtonRun α
  | 0, index, x, before => ⟨before.reverse, .error (.noConvergence index x)⟩
  | left + 1, index, x, before =>
    let it := Iterate.of f accuracy index x
    if !Scalar.isFinite it.next then ⟨(it :: before).reverse, .error (.diverged x)⟩
    else if Scalar.abs (it.next - x) ≤ accuracy then ⟨(it :: before).reverse, .ok it.next⟩
    else NewtonRun.proceed f accuracy left (index + 1) it.next (it :: before)

/-- Stops at two iterates in a row within `accuracy` of each other. -/
def newton (f : α → α) (x₀ accuracy : α) (maxIterations : Nat) : NewtonRun α :=
  .proceed f accuracy maxIterations 0 x₀ []

end Formula
