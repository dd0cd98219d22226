/-
# AffineRaising.Transform.DeadCode — removing operations that nobody needs.

An operation is dead if it has no effect and has results that are all unused.  A sweep visits nested
regions first and each block from its end, so that what a removal frees in front of it is found in
the same sweep.
-/
import AffineRaising.Ops.Effect

namespace AffineRaising.Transform

open AffineRaising.IR AffineRaising.Ops

/-- Outcome of repeated sweeps. -/
structure SweepReport where
  removed : Nat
  iterations : Nat
  reachedFixpoint : Bool
deriving DecidableEq, Repr

/-- An operation that can go. -/
def isDead (s : Store) (o : OpRef) : Except Fault Bool := do
  if ← isRemovable s o then return (s.resultsOf o).all fun v => !s.hasUses v
  else return false

/-- Erases the dead operations of a list in order, and counts them. -/
def eraseDead : List OpRef → Edit Nat
  | [] => return 0
  | o :: rest => do
    if ← query (isDead · o) then
      eraseOp o
      let n ← eraseDead rest
      return n + 1
    else eraseDead rest

/-- Sum of the numbers that a list of edits yields. -/
def sumM {α : Type} (f : α → Edit Nat) : List α → Edit Nat
  | [] => return 0
  | a :: as => do
    let n ← f a
    let m ← sumM f as
    return n + m

/-- Sweeps a region, nested no deeper than a bound. -/
def sweepWithin (recursive : Bool) : Nat → RegionRef → Edit Nat
  | 0, _ => throw .cyclic
  | depth + 1, r => do
    let d ← query (·.region r)
    d.blocks |> sumM fun b => do
      let nested ←
        if recursive then do
          let ops := (← query (·.block b)).ops
          ops |> sumM fun o => do
            let od ← query (·.op o)
            sumM (sweepWithin recursive depth) od.regions
        else pure 0
      let ops := (← query (·.block b)).ops
      let removed ← eraseDead ops.reverse
      return nested + removed

/-- Sweeps the first region of a module once. -/
def sweepModule (recursive : Bool) (root : OpRef) : Edit Nat := do
  let s ← get
  match (← query (·.op root)).regions with
  | [] => return 0
  | r :: _ => sweepWithin recursive s.depthBound r

/-- Sweeps until nothing is removed, at most `left` more times. -/
def sweepUntilClean (recursive : Bool) (root : OpRef) : Nat → Nat → Nat → Edit SweepReport
  | 0, removed, iterations => return ⟨removed, iterations, false⟩
  | left + 1, removed, iterations => do
    let n ← sweepModule recursive root
    if n = 0 then return ⟨removed, iterations + 1, true⟩
    sweepUntilClean recursive root left (removed + n) (iterations + 1)

/-- How many sweeps are made unless told otherwise. -/
def defaultSweeps : Nat := 100

/-- Removes dead operations from a module.  A limit of zero stands for the default. -/
def removeDeadCode (limit : Nat) (recursive : Bool) (root : OpRef) : Edit SweepReport :=
  sweepUntilClean recursive root (if limit = 0 then defaultSweeps else limit) 0 0

end AffineRaising.Transform
