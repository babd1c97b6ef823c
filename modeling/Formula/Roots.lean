import Formula.Evaluation
import Formula.Event

/-!
Roots on an interval: the interval is cut into equal parts, and each part with a sign change between its ends is handed
to Newton's iteration. A zero on a cut belongs to the part on its right, a zero at the very end to the last part.
-/

namespace Formula

structure Finder (α : Type) where
  intervals : Nat
  accuracy : α
  maxIterations : Nat

/-- What one part of the interval contributes. -/
inductive Verdict (α : Type) where
  | zero (x : α)
  | quiet
  | refined (lower upper : α) (run : NewtonRun α)

structure Point (α : Type) where
  x : α
  y : α

variable {α : Type}

namespace Verdict

def root? : Verdict α → Option α
  | zero x => some x
  | quiet => none
  | refined _ _ run => run.outcome.toOption

def events : Verdict α → List (Event α)
  | zero _ | quiet => []
  | refined lower upper run =>
    run.events ++ match run.outcome with
      | .ok _ => []
      | .error e => [.skipped lower upper e]

end Verdict

def gridPoint [Scalar α] (lower dx : α) (i : Nat) : α := lower + Scalar.ofNat i * dx

namespace Finder

variable [Scalar α]

def standard : Finder α := ⟨1000, 1.0e-5, 1000⟩

def inspect (finder : Finder α) (f : α → α) (isLast : Bool) (x₁ x₂ : α) : Verdict α :=
  let y₁ := f x₁
  let y₂ := f x₂
  if y₁ == 0.0 then .zero x₁
  else if y₂ == 0.0 then if isLast then .zero x₂ else .quiet
  else if !Scalar.isFinite y₁ || !Scalar.isFinite y₂ || 0.0 < y₁ * y₂ then .quiet
  else .refined x₁ x₂ (newton f (x₁ + finder.accuracy) finder.accuracy finder.maxIterations)

/-- One verdict per part, from left to right. -/
def scan (finder : Finder α) (f : α → α) (lower upper : α) : List (Verdict α) :=
  let dx := (upper - lower) / Scalar.ofNat finder.intervals
  (List.range finder.intervals).map fun i =>
    finder.inspect f (i + 1 == finder.intervals) (gridPoint lower dx i) (gridPoint lower dx (i + 1))

def roots (finder : Finder α) (f : α → α) (lower upper : α) : List α :=
  (finder.scan f lower upper).filterMap Verdict.root?

/-- The scan behind the points where two sequences meet. -/
def meetings (finder : Finder α) (a b : Sequence α) (lower upper : α) : List (Verdict α) :=
  finder.scan (a.merge b .sub).eval lower upper

/-- The points take their height from the first sequence. -/
def points (a : Sequence α) (verdicts : List (Verdict α)) : List (Point α) :=
  (verdicts.filterMap Verdict.root?).map fun x => ⟨x, a.eval x⟩

def intersections (finder : Finder α) (a b : Sequence α) (lower upper : α) : List (Point α) :=
  points a (finder.meetings a b lower upper)

end Finder

end Formula
