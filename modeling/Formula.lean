import Formula.Cursor.Operation
import Formula.Main
import Formula.Proofs.Built
import Formula.Proofs.Rendering.Reparse
import Formula.Proofs.Dependence
import Formula.Proofs.Rendering.Spelling
import Formula.Proofs.Rendering.Faithful
import Formula.Proofs.Roots
import Formula.Proofs.Grammar.Context
import Formula.Proofs.Equation
import Formula.Proofs.SignChange
import Formula.Proofs.Affine
import Formula.Proofs.Patience
import Formula.Proofs.Agreement
import Formula.Proofs.Difference
import Formula.Proofs.Grammar.Refusal
import Formula.Proofs.Grammar.Position
import Formula.Proofs.Grammar.Limit
import Formula.Proofs.Environment
import Formula.Proofs.Domain
import Formula.Proofs.Line
import Formula.Proofs.Prompt
import Formula.Proofs.Trapezoid
import Formula.Proofs.Rendering.Defect
import Formula.Proofs.Rendering.Minimal
import Formula.Proofs.Rendering.Numeral
import Formula.Proofs.Symmetry
import Formula.Proofs.Accounting
import Formula.Proofs.Width
import Formula.Proofs.Grammar.Boundary
import Formula.Proofs.Iteration
import Formula.Proofs.Cursor.Run
