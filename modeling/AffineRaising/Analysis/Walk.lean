/-
# AffineRaising.Analysis.Walk — visiting nested operations.

A walk visits an operation before what is nested in it, regions, blocks and operations in order.  At
each operation it can go on, leave out what is nested there, or stop.
-/
import AffineRaising.IR.Store

namespace AffineRaising.Analysis

open AffineRaising.IR

/-- What a walk does after an operation. -/
inductive WalkStep where
  | descend
  | skip
  | stop
deriving DecidableEq, Repr

/-- What a walk has seen, and where it stopped. -/
structure Trace where
  seen : List OpRef
  stopped : Option OpRef

/-- Walks operations in order with a walk for single ones, up to the one where it stops. -/
def walkListWith (walk : OpRef → Except Fault Trace) : List OpRef → Except Fault Trace
  | [] => return ⟨[], none⟩
  | o :: rest => do
    let first ← walk o
    if first.stopped.isSome then return first
    let more ← walkListWith walk rest
    return ⟨first.seen ++ more.seen, more.stopped⟩

/-- Walks an operation and what is nested in it, no deeper than a bound. -/
def walkWithin (s : Store) (choose : OpData → WalkStep) : Nat → OpRef → Except Fault Trace
  | 0, _ => throw .cyclic
  | depth + 1, o => do
    match choose (← s.op o) with
    | .stop => return ⟨[o], some o⟩
    | .skip => return ⟨[o], none⟩
    | .descend =>
      let nested ← walkListWith (walkWithin s choose depth) (← s.childOps o)
      return ⟨o :: nested.seen, nested.stopped⟩

/-- Walks an operation and what is nested in it. -/
def walk (s : Store) (choose : OpData → WalkStep) (root : OpRef) : Except Fault Trace :=
  walkWithin s choose s.depthBound root

/-- An operation and everything nested in it. -/
def opsUnder (s : Store) (root : OpRef) : Except Fault (List OpRef) := do
  return (← walk s (fun _ => .descend) root).seen

/-- Everything nested in an operation. -/
def nestedOps (s : Store) (root : OpRef) : Except Fault (List OpRef) := do
  return (← opsUnder s root).tail

/-- Everything nested in the first region of an operation. -/
def bodyOps (s : Store) (root : OpRef) : Except Fault (List OpRef) := do
  match (← s.op root).regions with
  | [] => return []
  | r :: _ =>
    let blocks ← (← s.region r).blocks.mapM s.block
    let trace ← walkListWith (walk s fun _ => .descend) (blocks.flatMap (·.ops))
    return trace.seen

/-- The arguments of the blocks of an operation's regions. -/
def regionArgs (s : Store) (o : OpRef) : Except Fault (List ValueRef) := do
  let regions ← (← s.op o).regions.mapM s.region
  return (regions.flatMap (·.blocks)).flatMap s.argsOf

/-- The values defined under an operation: for each operation its results, then the arguments of
its blocks. -/
def valuesUnder (s : Store) (root : OpRef) : Except Fault (List ValueRef) := do
  let ops ← opsUnder s root
  let values ← ops.mapM fun o => do return s.resultsOf o ++ (← regionArgs s o)
  return values.flatten

end AffineRaising.Analysis
