/-
# AffineRaising.Ops.Effect — what operations do to memory.

Each known operation is pure, reads memory or may write it; an operation that nobody knows counts as
writing.  Operations with regions inherit what is nested in them.
-/
import AffineRaising.Ops.Access
import AffineRaising.Ops.Arith
import AffineRaising.Ops.Control

namespace AffineRaising.Ops

open AffineRaising.IR

/-- What an operation does to memory, leaving aside what is nested in it. -/
inductive Effect where
  | pure
  | read
  | write
deriving DecidableEq, Repr

/-- The operations without effect, integer arithmetic apart. -/
def pureNames : List OpName :=
  [applyName, forName, affineIfName, parallelName, affineYieldName, scfIfName, scfYieldName,
    returnName]

/-- The operations that only read. -/
def readNames : List OpName :=
  [AccessKind.load.opName, AccessKind.prefetch.opName, AccessKind.vectorLoad.opName, loadName]

/-- The effect of a name. -/
def Effect.ofName (n : OpName) : Effect :=
  if (ArithKind.ofName? n).isSome || pureNames.contains n then .pure
  else if readNames.contains n then .read
  else .write

/-- The effect of an operation itself. -/
def effectOf (s : Store) (o : OpRef) : Except Fault Effect := do
  return Effect.ofName (← s.nameOf o)

/-- Tests the members of a list in order, up to the first that fails. -/
def allInOrder {α : Type} (test : α → Except Fault Bool) : List α → Except Fault Bool
  | [] => return true
  | a :: as => do
    if ← test a then allInOrder test as else return false

/-- Tests an operation's effect and everything nested in it, no deeper than a bound. -/
def effectsWithin (s : Store) (accepts : Effect → Bool) : Nat → OpRef → Except Fault Bool
  | 0, _ => throw .cyclic
  | depth + 1, o => do
    if accepts (← effectOf s o) then
      allInOrder (effectsWithin s accepts depth) (← s.childOps o)
    else return false

/-- An operation without effect, like everything nested in it. -/
def isPure (s : Store) (o : OpRef) : Except Fault Bool :=
  effectsWithin s (· == .pure) s.depthBound o

/-- An operation that at most reads memory, like everything nested in it. -/
def isReadOnly (s : Store) (o : OpRef) : Except Fault Bool :=
  effectsWithin s (· != .write) s.depthBound o

/-- An operation that can go once its results are unused: it has results and no effect. -/
def isRemovable (s : Store) (o : OpRef) : Except Fault Bool :=
  if (s.resultsOf o).isEmpty then return false else isPure s o

end AffineRaising.Ops
