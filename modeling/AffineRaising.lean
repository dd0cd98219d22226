import AffineRaising.Affine.ConstraintSet
import AffineRaising.Affine.Eval
import AffineRaising.Affine.Expr
import AffineRaising.Affine.Linear
import AffineRaising.Affine.Map
import AffineRaising.Affine.Quotient
import AffineRaising.Affine.Substitution
import AffineRaising.Affine.Text
import AffineRaising.Analysis.Dominance
import AffineRaising.Analysis.Validity
import AffineRaising.Analysis.Walk
import AffineRaising.CommandLine.Outcome
import AffineRaising.CommandLine.Request
import AffineRaising.Decimal.Binary64
import AffineRaising.Decimal.Shortest
import AffineRaising.IR.Attribute
import AffineRaising.IR.Edit
import AffineRaising.IR.Entity
import AffineRaising.IR.Print
import AffineRaising.IR.Resolve
import AffineRaising.IR.Store
import AffineRaising.Main
import AffineRaising.Ops.Access
import AffineRaising.Ops.Arith
import AffineRaising.Ops.Control
import AffineRaising.Ops.Effect
import AffineRaising.Pipeline
import AffineRaising.Raise.Classify
import AffineRaising.Raise.Compose
import AffineRaising.Raise.Guard
import AffineRaising.Raise.Journal
import AffineRaising.Raise.Legalize
import AffineRaising.Raise.MinMax
import AffineRaising.Raise.Pattern
import AffineRaising.Raise.Rebind
import AffineRaising.Raise.Sign
import AffineRaising.Surface.AffineGrammar
import AffineRaising.Surface.Grammar
import AffineRaising.Surface.Lexeme
import AffineRaising.Surface.Tree
import AffineRaising.Text.Quoted
import AffineRaising.Text.Reader
import AffineRaising.Transform.DeadCode
import AffineRaising.Transform.Greedy
import AffineRaising.Proofs.Store.Spec
import AffineRaising.Proofs.Store.Links
import AffineRaising.Proofs.Store.Clone
import AffineRaising.Proofs.Store.Erase
import AffineRaising.Proofs.Store.UseChain
import AffineRaising.Proofs.Affine.Meaning
import AffineRaising.Proofs.Raise.Chain
import AffineRaising.Proofs.Raise.Run
import AffineRaising.Proofs.Raise.Rebind
import AffineRaising.Proofs.Raise.Promote
import AffineRaising.Proofs.Raise.Cast
import AffineRaising.Proofs.Raise.ComposeValue
import AffineRaising.Proofs.Store.Copy
import AffineRaising.Proofs.Store.Restore
import AffineRaising.Proofs.Raise.Undo
import AffineRaising.Proofs.Raise.Decline
import AffineRaising.Proofs.Store.Visible
import AffineRaising.Proofs.Affine.Substitution
import AffineRaising.Proofs.Affine.Coefficient
import AffineRaising.Proofs.Affine.Canonical
import AffineRaising.Proofs.Affine.LinearFunction
import AffineRaising.Proofs.Surface.Lexeme
import AffineRaising.Proofs.Surface.AffineText
import AffineRaising.Proofs.Surface.OperationText
import AffineRaising.Proofs.Surface.BareOperation
import AffineRaising.Proofs.Surface.PrintedOperation
import AffineRaising.Proofs.Analysis.Nesting
import AffineRaising.Proofs.Analysis.Visibility
import AffineRaising.Proofs.Resolve.Module
import AffineRaising.Proofs.Raise.Promoted
import AffineRaising.Proofs.Store.Provenance
import AffineRaising.Proofs.Raise.Commit
import AffineRaising.Proofs.Store.Moved
import AffineRaising.Proofs.Analysis.Moved
import AffineRaising.Proofs.Raise.Padding
import AffineRaising.Proofs.Raise.Moved
import AffineRaising.Proofs.Raise.Consistency
import AffineRaising.Proofs.Raise.Visit
import AffineRaising.Proofs.Raise.Silent
import AffineRaising.Proofs.Store.Printed
import AffineRaising.Proofs.Raise.Fixpoint
import AffineRaising.Proofs.Raise.Termination
import AffineRaising.Proofs.Raise.GuardExact
import AffineRaising.Proofs.Raise.BoundExact
import AffineRaising.Proofs.Store.Mirror
import AffineRaising.Proofs.Raise.Placement
import AffineRaising.Proofs.Raise.Writes
import AffineRaising.Proofs.Raise.Words
import AffineRaising.Proofs.Raise.Answers
import AffineRaising.Proofs.Raise.Frame
import AffineRaising.Proofs.Raise.LostPlace
import AffineRaising.Proofs.Raise.Dependence
import AffineRaising.Proofs.Affine.Instance
import AffineRaising.Proofs.Raise.CanonicalOperands
import AffineRaising.Proofs.Affine.LinearInstance
import AffineRaising.Proofs.Raise.LinearBinding
import AffineRaising.Proofs.Raise.RepeatedOperand
import AffineRaising.Proofs.Raise.RepeatedComposition
import AffineRaising.Proofs.Raise.PieceInputs
import AffineRaising.Proofs.Raise.Renormalize
import AffineRaising.Proofs.Raise.Lifting
import AffineRaising.Proofs.Raise.Anchor
import AffineRaising.Proofs.Raise.Upstream
import AffineRaising.Proofs.Raise.SymbolPromotion
import AffineRaising.Proofs.Raise.LegalOperands
import AffineRaising.Proofs.Affine.Evaluation
import AffineRaising.Proofs.Affine.Totality
import AffineRaising.Proofs.Text.Yield
import AffineRaising.Proofs.Text.Quoted
import AffineRaising.Proofs.Surface.CanonicalText
import AffineRaising.Proofs.Surface.AttributeShape
import AffineRaising.Proofs.Surface.AttributeText
import AffineRaising.Proofs.Analysis.Forest
import AffineRaising.Proofs.Analysis.PointOrder
import AffineRaising.Proofs.Text.Progress
import AffineRaising.Proofs.Surface.Depth
import AffineRaising.Proofs.Store.EraseOrder
import AffineRaising.Proofs.Ops.Effect
import AffineRaising.Proofs.Transform.Sweep
import AffineRaising.Proofs.Transform.DeadCode
import AffineRaising.Proofs.Store.Sized
import AffineRaising.Proofs.Store.Image
import AffineRaising.Proofs.Analysis.Arity
import AffineRaising.Proofs.Raise.Traced
import AffineRaising.Proofs.Store.Inserted
import AffineRaising.Proofs.Raise.Visible
import AffineRaising.Proofs.Raise.VisibleEdits
import AffineRaising.Proofs.Raise.Drawn
import AffineRaising.Proofs.Raise.Sound
import AffineRaising.Proofs.Raise.Draws
import AffineRaising.Proofs.Raise.Rehoused
import AffineRaising.Proofs.Raise.SoundBounds
import AffineRaising.Proofs.Raise.SoundBranches
import AffineRaising.Proofs.Raise.SoundConditional
import AffineRaising.Proofs.Raise.SoundVisits
import AffineRaising.Proofs.Raise.Validity
import AffineRaising.Proofs.Raise.Pruned
import AffineRaising.Proofs.Raise.Idle
import AffineRaising.Proofs.Raise.Resting
import AffineRaising.Proofs.Raise.Idempotence
import AffineRaising.Proofs.Raise.Transactions
