/-
# AffineRaising.Raise.Legalize — raising a whole module.

The patterns are applied greedily until nothing changes; then dead operations are removed.
-/
import AffineRaising.Raise.Pattern

namespace AffineRaising.Raise

open AffineRaising.IR AffineRaising.Transform

/-- How a module is raised. -/
structure Config where
  /-- Greatest number of sweeps over the module. -/
  maxIterations : Nat := 10
  /-- Whether dead operations are removed afterwards. -/
  runDce : Bool := true
  /-- Greatest number of folding steps for a map or set. -/
  maxComposeSteps : Nat := 32
deriving DecidableEq, Repr

/-- What raising did. -/
structure Outcome where
  applied : PatternReport
  /-- Missing if dead operations were not to be removed. -/
  sweep : Option SweepReport
deriving DecidableEq, Repr

/-- Whether raising changed the module. -/
def Outcome.changed (o : Outcome) : Bool :=
  decide (0 < o.applied.changes) || o.sweep.any fun r => decide (0 < r.removed)

/-- The patterns in the order in which they are tried. -/
def patterns (limit : Nat) : List Pattern :=
  [raiseApply limit, foldIndexCast, normalizeAccess limit, normalizeCondition limit,
    raiseStore limit, raiseConditional limit, raiseLoad limit, normalizeBounds limit]

/-- Raises a module. -/
def legalize (config : Config) (root : OpRef) : Edit Outcome := do
  let applied ← applyPatterns (patterns config.maxComposeSteps) config.maxIterations root
  let sweep ←
    if config.runDce then do pure (some (← removeDeadCode defaultSweeps true root))
    else pure none
  return ⟨applied, sweep⟩

end AffineRaising.Raise
