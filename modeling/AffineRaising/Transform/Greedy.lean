/-
# AffineRaising.Transform.Greedy — applying patterns until nothing changes.

A pattern looks at an operation and either leaves it alone, changes it in place, or asks for it to
be replaced or erased.  A sweep visits every operation of a module, nested ones first, and applies
the first pattern that asks for a change; sweeps are repeated until one changes nothing or the
limit is reached.
-/
import AffineRaising.Transform.DeadCode

namespace AffineRaising.Transform

open AffineRaising.IR AffineRaising.Ops

/-- What a pattern asks for. -/
inductive Change where
  /-- Nothing to do. -/
  | none
  /-- The operation was changed directly. -/
  | inPlace
  /-- The operation is to be replaced by another one, results in order. -/
  | replaceBy (op : OpRef)
  /-- The operation is to be erased, and its results replaced by these values. -/
  | eraseFor (values : List ValueRef)
deriving DecidableEq, Repr

/-- A pattern: looks at an operation and asks for a change. -/
abbrev Pattern := OpRef → Edit Change

/-- Replaces values one by one. -/
def replaceEach : List (ValueRef × ValueRef) → Edit Unit
  | [] => return
  | (old, new) :: rest => do
    replaceAllUses old new
    replaceEach rest

/-- Replaces the results of an operation by as many values. -/
def replaceResults (op : OpRef) (values : List ValueRef) : Edit Unit := do
  let results := (← get).resultsOf op
  if results.length ≠ values.length then throw (.resultCount op)
  replaceEach (results.zip values)

/-- Carries out a change. -/
def applyChange (op : OpRef) : Change → Edit Unit
  | .none => return
  | .inPlace => return
  | .replaceBy new => do
    let parent := (← query (·.op op)).parent
    let results := (← get).resultsOf new
    replaceResults op results
    match parent with
    | some block => insertBefore block op new
    | none => pure ()
    eraseOp op
  | .eraseFor values => do
    replaceResults op values
    eraseOp op

/-- Applies the first pattern that asks for a change; says whether one did. -/
def applyFirst (op : OpRef) : List Pattern → Edit Bool
  | [] => return false
  | pattern :: rest => do
    match ← pattern op with
    | .none => applyFirst op rest
    | change =>
      applyChange op change
      return true

/-- Whether an operation is in a block. -/
def isIn (block : BlockRef) (op : OpRef) : Edit Bool := do
  return (← query (·.op op)).parent == some block

/-- Visits an operation of a block with a visitor for regions, and counts the changes.  An operation
that has left its block meanwhile is passed over. -/
def visitOpWith (visitRegion : RegionRef → Edit Nat) (patterns : List Pattern) (block : BlockRef)
    (op : OpRef) : Edit Nat := do
  if !(← isIn block op) then return 0
  let nested ← sumM visitRegion (← query (·.op op)).regions
  if !(← isIn block op) then return nested
  if ← applyFirst op patterns then return nested + 1 else return nested

/-- Visits the operations of a region, nested no deeper than a bound, and counts the changes. -/
def visitWithin (patterns : List Pattern) : Nat → RegionRef → Edit Nat
  | 0, _ => throw .cyclic
  | depth + 1, r => do
    let d ← query (·.region r)
    d.blocks |> sumM fun b => do
      let ops := (← query (·.block b)).ops
      sumM (visitOpWith (visitWithin patterns depth) patterns b) ops

/-- Visits the operations of a module once, and counts the changes. -/
def visitModule (patterns : List Pattern) (root : OpRef) : Edit Nat := do
  let s ← get
  match (← query (·.op root)).regions with
  | [] => return 0
  | r :: _ => visitWithin patterns s.depthBound r

/-- Outcome of repeated visits. -/
structure PatternReport where
  iterations : Nat
  changes : Nat
  reachedFixpoint : Bool
deriving DecidableEq, Repr

/-- Visits until nothing changes, at most `left` more times. -/
def visitUntilStable (patterns : List Pattern) (root : OpRef) :
    Nat → Nat → Nat → Edit PatternReport
  | 0, iterations, changes => return ⟨iterations, changes, false⟩
  | left + 1, iterations, changes => do
    let n ← visitModule patterns root
    if n = 0 then return ⟨iterations + 1, changes, true⟩
    visitUntilStable patterns root left (iterations + 1) (changes + n)

/-- Applies patterns to a module until nothing changes, at most `limit` times. -/
def applyPatterns (patterns : List Pattern) (limit : Nat) (root : OpRef) : Edit PatternReport :=
  visitUntilStable patterns root limit 0 0

/-! ## Terminators -/

/-- Replaces the last operation of a block, if it has the name `source`, by one named `target` with
the same operands.  Yields the number of replacements. -/
def retargetBlock (source target : OpName) (block : BlockRef) : Edit Nat := do
  match (← query (·.block block)).ops.getLast? with
  | none => return 0
  | some last =>
    let d ← query (·.op last)
    if d.name ≠ source then return 0
    let new ← createOp (yieldSpec target d.operands)
    insertBefore block last new
    eraseOp last
    return 1

/-- Replaces the terminators named `source` of a region's blocks, and counts them. -/
def retargetTerminators (source target : OpName) (r : RegionRef) : Edit Nat := do
  let d ← query (·.region r)
  sumM (retargetBlock source target) d.blocks

/-- A new region of one block that holds only a terminator. -/
def regionWithTerminator (terminator : OpRef) : Edit RegionRef := do
  let block ← createBlock []
  pushOp block terminator
  createRegion [block]

end AffineRaising.Transform
