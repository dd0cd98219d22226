/-
# AffineRaising.Analysis.Dominance — what is visible where.

Blocks are straight-line code, so one point of a program dominates another if its block encloses the
other point and it does not come after the operation that leads there.  A value is visible where the
point after its definition dominates.
-/
import AffineRaising.IR.Edit

namespace AffineRaising.Analysis

open AffineRaising.IR

/-- A place in a block: in front of an operation, or at the end. -/
structure Point where
  block : BlockRef
  before : Option OpRef
deriving DecidableEq, Repr

namespace Point

/-- The place in front of an operation, if it is in a block. -/
def before? (s : Store) (o : OpRef) : Except Fault (Option Point) := do
  return (← s.op o).parent.map fun b => ⟨b, some o⟩

/-- The place behind an operation, if it is in a block. -/
def after? (s : Store) (o : OpRef) : Except Fault (Option Point) := do
  match (← s.op o).parent with
  | none => return none
  | some b => return some ⟨b, ← s.next? o⟩

/-- The start of a block. -/
def start (s : Store) (b : BlockRef) : Except Fault Point := do
  return ⟨b, (← s.block b).ops.head?⟩

/-- The first place where a value is available. -/
def afterDefinition? (s : Store) (v : ValueRef) : Except Fault (Option Point) := do
  match (← s.value v).origin with
  | .result o _ => after? s o
  | .argument b _ => return some (← start s b)

/-- Number of operations of the block in front of a place. -/
def index (s : Store) (p : Point) : Except Fault Nat := do
  let ops := (← s.block p.block).ops
  match p.before with
  | none => return ops.length
  | some o => return (ops.idxOf? o).getD ops.length

/-- Puts a detached operation at a place. -/
def insert (p : Point) (o : OpRef) : Edit Unit :=
  insertOp p.block p.before o

end Point

/-- Climbs from an operation to the one of a block that encloses it, at most `fuel` steps. -/
def ancestorInFuel? (s : Store) (block : BlockRef) : Nat → OpRef → Except Fault (Option OpRef)
  | 0, _ => throw .cyclic
  | fuel + 1, o => do
    match (← s.op o).parent with
    | none => return none
    | some parent =>
      if parent = block then return some o
      match ← s.blockOwner? parent with
      | none => return none
      | some owner => ancestorInFuel? s block fuel owner

/-- The operation of a block that is the given one or encloses it. -/
def ancestorIn? (s : Store) (block : BlockRef) (o : OpRef) : Except Fault (Option OpRef) :=
  ancestorInFuel? s block s.depthBound o

/-- Whether what is at `a` is visible at `b`. -/
def dominates (s : Store) (a b : Point) : Except Fault Bool := do
  if a.block = b.block then return decide ((← a.index s) ≤ (← b.index s))
  match ← s.blockOwner? b.block with
  | none => return false
  | some holder =>
    match ← ancestorIn? s a.block holder with
    | none => return false
    | some anchor =>
      match ← s.position? anchor with
      | none => return false
      | some i => return decide ((← a.index s) ≤ i)

/-- Order of two points, if one dominates the other. -/
def comparePoints? (s : Store) (a b : Point) : Except Fault (Option Ordering) := do
  match ← dominates s a b, ← dominates s b a with
  | true, true => return some .eq
  | true, false => return some .lt
  | false, true => return some .gt
  | false, false => return none

/-- The later of a point and a list of points, if all can be compared in turn. -/
def latestFrom? (s : Store) : Point → List Point → Except Fault (Option Point)
  | p, [] => return some p
  | p, q :: rest => do
    match ← comparePoints? s p q with
    | none => return none
    | some .lt => latestFrom? s q rest
    | some _ => latestFrom? s p rest

/-- The point that all others of a list dominate. -/
def latest? (s : Store) : List Point → Except Fault (Option Point)
  | [] => return none
  | p :: rest => latestFrom? s p rest

/-- Whether a value is defined before, and visible at, an operation. -/
def valueDominates (s : Store) (v : ValueRef) (user : OpRef) : Except Fault Bool := do
  match ← s.homeBlock? v with
  | none => return false
  | some block =>
    match ← ancestorIn? s block user with
    | none => return false
    | some anchor =>
      match (← s.value v).origin with
      | .argument _ _ => return true
      | .result definition _ =>
        if definition = anchor then return false
        match ← s.position? definition, ← s.position? anchor with
        | some d, some a => return decide (d < a)
        | _, _ => return false

/-- Whether a value can be used at a point. -/
def availableAt (s : Store) (v : ValueRef) (p : Point) : Except Fault Bool := do
  match ← Point.afterDefinition? s v with
  | none => return false
  | some d => dominates s d p

end AffineRaising.Analysis
