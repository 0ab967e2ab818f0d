import DiceAlgebra.Expr.Contains
import DiceAlgebra.Journal
import DiceAlgebra.Main
import DiceAlgebra.Proofs.Expr.Contraction
import DiceAlgebra.Proofs.Expr.Unambiguous
import DiceAlgebra.Proofs.Roller.Script
import DiceAlgebra.Proofs.Expr.Recording
import DiceAlgebra.Proofs.Pool.Clamped
import DiceAlgebra.Proofs.Pool.Layout
import DiceAlgebra.Proofs.Expr.FlatParts
import DiceAlgebra.Proofs.Expr.Limits
import DiceAlgebra.Proofs.Expr.NormalForm
import DiceAlgebra.Proofs.Expr.Cancellation
import DiceAlgebra.Proofs.Expr.Settling
import DiceAlgebra.Proofs.Expr.Flattening
import DiceAlgebra.Proofs.Pool.Raw
import DiceAlgebra.Proofs.CommandLine.Agreement
import DiceAlgebra.Proofs.Formula.Context
import DiceAlgebra.Proofs.Expr.Compositional
import DiceAlgebra.Proofs.Pool.Bulk
import DiceAlgebra.Proofs.Expr.RollCount
import DiceAlgebra.Proofs.Expr.MarkedParts
import DiceAlgebra.Proofs.Expr.Refusal
import DiceAlgebra.Proofs.Expr.Chance
import DiceAlgebra.Proofs.Outcome.Culprit
import DiceAlgebra.Proofs.Expr.Names
import DiceAlgebra.Proofs.Pool.Range64
import DiceAlgebra.Proofs.Expr.Containment
import DiceAlgebra.Proofs.Grammar.Report
import DiceAlgebra.Proofs.Grammar.Expectation
import DiceAlgebra.Proofs.Grammar.Forms
import DiceAlgebra.Proofs.Expr.Rendering
import DiceAlgebra.Proofs.Grammar.Joining
import DiceAlgebra.Proofs.Expr.Merges
import DiceAlgebra.Proofs.Throw.Listing
