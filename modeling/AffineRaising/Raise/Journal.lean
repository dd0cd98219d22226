/-
# AffineRaising.Raise.Journal — moving computations where they become symbols.

A value that is not a symbol yet may become one if a copy of its computation moves to the earliest
place where all inputs exist.  Such moves are tried before it is known whether they pay, so each
is written down in a journal: a journal is either committed, which erases what was copied, or
rolled back, which undoes the moves from the last to the first.
-/
import AffineRaising.Analysis.Dominance
import AffineRaising.Analysis.Walk
import AffineRaising.Raise.Classify

namespace AffineRaising.Raise

open AffineRaising.IR AffineRaising.Ops AffineRaising.Analysis

/-- One step that can be undone. -/
inductive Entry where
  /-- `source` left its place in `block`, in front of `before`, and `clone` took over its uses. -/
  | hoisted (source : OpRef) (block : BlockRef) (before : Option OpRef) (clone : OpRef)
  /-- A new operation was put into the program. -/
  | inserted (op : OpRef)
deriving DecidableEq, Repr

/-- Steps in the order in which they were made. -/
abbrev Journal := List Entry

/-- An edit that keeps a journal. -/
abbrev Draft := StateT Journal Edit

namespace Draft

/-- Runs an edit whose effect the journal does not cover, or a query. -/
def lift {α : Type} (e : Edit α) : Draft α := liftM e

/-- Runs a query. -/
def ask {α : Type} (q : Store → Except Fault α) : Draft α := lift (query q)

/-- Writes a step down. -/
def record (e : Entry) : Draft Unit := modify (· ++ [e])

end Draft

namespace Journal

/-- Keeps every step: the operations that were copied are erased. -/
def commit : Journal → Edit Unit
  | [] => return
  | .hoisted source _ _ _ :: rest => do
    eraseOp source
    commit rest
  | .inserted _ :: rest => commit rest

/-- Replaces the results of one operation by those of another, as far as both go. -/
def redirectResults (source target : OpRef) : Edit Unit := do
  let s ← get
  ((s.resultsOf source).zip (s.resultsOf target)).forM fun p => replaceAllUses p.1 p.2

/-- Undoes one step. -/
def undo : Entry → Edit Unit
  | .hoisted source block before clone => do
    redirectResults clone source
    insertOp block before source
    eraseOp clone
  | .inserted op => eraseOp op

/-- Undoes every step, the last one first. -/
def rollback (journal : Journal) : Edit Unit :=
  journal.reverse.forM undo

end Journal

/-! ## Free operands -/

/-- Whether a value is defined inside an operation. -/
def isDefinedInside (s : Store) (v : ValueRef) (o : OpRef) : Except Fault Bool := do
  match ← homeOwner? s v with
  | none => return false
  | some owner => s.isWithin o owner

/-- Adds the values of a list that are defined outside an operation and not yet listed. -/
def addFree (s : Store) (o : OpRef) : List ValueRef → List ValueRef → Except Fault (List ValueRef)
  | free, [] => return free
  | free, v :: rest => do
    if !(← isDefinedInside s v o) && !free.contains v then addFree s o (free ++ [v]) rest
    else addFree s o free rest

/-- The operands of an operation, and of what is nested in it, that are defined outside, in the
order of their first use. -/
def freeOperands (s : Store) (o : OpRef) : Except Fault (List ValueRef) := do
  let users ← opsUnder s o
  let operands ← users.mapM s.operandsOf
  addFree s o [] operands.flatten

/-! ## Promotion -/

/-- Whether a value can stay where it is: a symbol or, for an index, an induction variable. -/
def staysPut (s : Store) (forIndex : Bool) (v : ValueRef) : Except Fault Bool := do
  if ← isSymbol s v then return true
  if forIndex then isLoopArg s v else return false

/-- Makes operands available with a way to promote single values, and collects the places from which
on they are.  Stops at the first that cannot be had. -/
def availabilityWith (promote : ValueRef → Draft (Option ValueRef)) (forIndex : Bool) :
    List ValueRef → Draft (Option (List Point))
  | [] => return some []
  | v :: rest => do
    let available ←
      if (← Draft.ask (·.definingOp? v)).isSome then promote v
      else if ← Draft.ask (staysPut · forIndex v) then pure (some v)
      else pure none
    match available with
    | none => return none
    | some a =>
      match ← Draft.ask (Point.afterDefinition? · a) with
      | none => return none
      | some p =>
        match ← availabilityWith promote forIndex rest with
        | none => return none
        | some ps => return some (p :: ps)

/-- Moves a copy of an operation to a place, lets it take over the uses, and takes the operation
itself out of its block. -/
def hoist (o : OpRef) (p : Point) : Draft (Option OpRef) := do
  match (← Draft.ask (·.op o)).parent with
  | none => return none
  | some block =>
    let before ← Draft.ask (·.next? o)
    let (clone, _) ← Draft.lift (cloneOp [] o)
    Draft.lift (p.insert clone)
    Draft.lift (Journal.redirectResults o clone)
    Draft.lift (detach o)
    Draft.record (.hoisted o block before clone)
    return some clone

/-- Promotes a value through at most `fuel` definitions. -/
def promoteFuel (forIndex : Bool) : Nat → ValueRef → Draft (Option ValueRef)
  | 0, _ => throw .cyclic
  | fuel + 1, v => do
    if ← Draft.ask (staysPut · forIndex v) then return some v
    match ← Draft.ask (·.definingOp? v) with
    | none => return none
    | some o =>
      if ← Draft.ask (isNamed · o ArithKind.const.opName) then return some v
      if !(← Draft.ask (isReadOnly · o)) then return none
      let free ← Draft.ask (freeOperands · o)
      match ← availabilityWith (promoteFuel forIndex fuel) forIndex free with
      | none => return none
      | some points =>
        match ← Draft.ask (latest? · points) with
        | none => return none
        | some p =>
          match ← hoist o p with
          | none => return none
          | some clone =>
            let s ← Draft.lift get
            return (s.resultsOf clone).head?

/-- Tries to turn a value into a symbol by moving a copy of its computation, which must not write
memory, to the earliest place where its inputs exist.  For an index, induction variables may be
inputs too.  The steps made are in the journal even if the value could not be promoted. -/
def promote (v : ValueRef) (forIndex : Bool) : Draft (Option ValueRef) := do
  let s ← Draft.lift get
  promoteFuel forIndex s.depthBound v

end AffineRaising.Raise
