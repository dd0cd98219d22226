/-
# AffineRaising.IR.Store — programs as tables of operations, values, blocks and regions.

A store holds everything that was ever created; what an edit takes out of the program stays in its
table.  Beside the four tables a store keeps, for every value, the list of its uses in the order
in which they were recorded.  Reading a table faults where there is no entry; the lists of uses,
results and arguments read as empty instead.
-/
import AffineRaising.IR.Attribute
import AffineRaising.IR.Entity

namespace AffineRaising.IR

/-- An operation. -/
structure OpData where
  name : OpName
  operands : List ValueRef
  results : List ValueRef
  resultTypes : List Ty
  attrs : Dict
  regions : List RegionRef
  successors : List BlockRef
  /-- The block that holds the operation. -/
  parent : Option BlockRef

/-- A value. -/
structure ValueData where
  origin : Origin
  ty : Ty

/-- A block. -/
structure BlockData where
  args : List ValueRef
  argTypes : List Ty
  ops : List OpRef
  /-- The region that holds the block. -/
  parent : Option RegionRef

/-- A region. -/
structure RegionData where
  blocks : List BlockRef
  /-- The operation that holds the region. -/
  parent : Option OpRef

/-- All operations, values, blocks and regions, and the uses of values. -/
structure Store where
  ops : Array OpData
  values : Array ValueData
  blocks : Array BlockData
  regions : Array RegionData
  uses : Array (List Use)

/-- Sets an entry of a table of lists, which grows as needed. -/
def setGrowing {α : Type} (table : Array (List α)) (i : Nat) (entry : List α) : Array (List α) :=
  if i < table.size then table.setIfInBounds i entry
  else (table ++ Array.replicate (i - table.size) []).push entry

namespace Store

/-- A store without anything in it. -/
def empty : Store := ⟨#[], #[], #[], #[], #[]⟩

/-- An operation by reference. -/
def op (s : Store) (o : OpRef) : Except Fault OpData :=
  match s.ops[o.index]? with
  | some d => .ok d
  | none => .error (.unknownOp o)

/-- A value by reference. -/
def value (s : Store) (v : ValueRef) : Except Fault ValueData :=
  match s.values[v.index]? with
  | some d => .ok d
  | none => .error (.unknownValue v)

/-- A block by reference. -/
def block (s : Store) (b : BlockRef) : Except Fault BlockData :=
  match s.blocks[b.index]? with
  | some d => .ok d
  | none => .error (.unknownBlock b)

/-- A region by reference. -/
def region (s : Store) (r : RegionRef) : Except Fault RegionData :=
  match s.regions[r.index]? with
  | some d => .ok d
  | none => .error (.unknownRegion r)

/-- The recorded uses of a value. -/
def usesOf (s : Store) (v : ValueRef) : List Use :=
  s.uses.getD v.index []

/-- The results of an operation; none if there is no such operation. -/
def resultsOf (s : Store) (o : OpRef) : List ValueRef :=
  match s.ops[o.index]? with
  | some d => d.results
  | none => []

/-- The arguments of a block; none if there is no such block. -/
def argsOf (s : Store) (b : BlockRef) : List ValueRef :=
  match s.blocks[b.index]? with
  | some d => d.args
  | none => []

/-- The operands of an operation. -/
def operandsOf (s : Store) (o : OpRef) : Except Fault (List ValueRef) := do
  return (← s.op o).operands

/-- The name of an operation. -/
def nameOf (s : Store) (o : OpRef) : Except Fault OpName := do
  return (← s.op o).name

/-- Operand `i` of an operation. -/
def operand (s : Store) (o : OpRef) (i : Nat) : Except Fault ValueRef := do
  match (← s.op o).operands[i]? with
  | some v => return v
  | none => throw (.missingOperand o i)

/-- Result `i` of an operation. -/
def result (s : Store) (o : OpRef) (i : Nat) : Except Fault ValueRef :=
  match (s.resultsOf o)[i]? with
  | some v => .ok v
  | none => .error (.missingResult o i)

/-- Region `i` of an operation. -/
def regionAt (s : Store) (o : OpRef) (i : Nat) : Except Fault RegionRef := do
  match (← s.op o).regions[i]? with
  | some r => return r
  | none => throw (.missingRegion o i)

/-- The type of a value. -/
def typeOf (s : Store) (v : ValueRef) : Except Fault Ty := do
  return (← s.value v).ty

/-- The operation that defines a value, if it is a result. -/
def definingOp? (s : Store) (v : ValueRef) : Except Fault (Option OpRef) := do
  return (← s.value v).origin.op?

/-- An attribute of an operation. -/
def attr? (s : Store) (o : OpRef) (key : String) : Except Fault (Option Attr) := do
  return (← s.op o).attrs.get? key

/-- Whether a value has a recorded use. -/
def hasUses (s : Store) (v : ValueRef) : Bool :=
  !(s.usesOf v).isEmpty

/-! ## Replacing entries -/

/-- Replaces the entry of an operation. -/
def setOp (s : Store) (o : OpRef) (d : OpData) : Store :=
  { s with ops := s.ops.setIfInBounds o.index d }

/-- Replaces the entry of a block. -/
def setBlock (s : Store) (b : BlockRef) (d : BlockData) : Store :=
  { s with blocks := s.blocks.setIfInBounds b.index d }

/-- Replaces the entry of a region. -/
def setRegion (s : Store) (r : RegionRef) (d : RegionData) : Store :=
  { s with regions := s.regions.setIfInBounds r.index d }

/-- Replaces the recorded uses of a value. -/
def setUses (s : Store) (v : ValueRef) (us : List Use) : Store :=
  { s with uses := setGrowing s.uses v.index us }

/-- Records one more use of a value, after the others. -/
def addUse (s : Store) (v : ValueRef) (u : Use) : Store :=
  s.setUses v (s.usesOf v ++ [u])

/-- Forgets the uses of a value that satisfy a test. -/
def dropUses (s : Store) (v : ValueRef) (drop : Use → Bool) : Store :=
  s.setUses v ((s.usesOf v).filter fun u => !drop u)

/-- A bound on the number of operations nested in, or defined through, each other. -/
def depthBound (s : Store) : Nat := s.ops.size + 1

end Store

/-! ## Navigation -/

namespace Store

/-- The operation whose region holds a block. -/
def blockOwner? (s : Store) (b : BlockRef) : Except Fault (Option OpRef) := do
  match (← s.block b).parent with
  | none => return none
  | some r => return (← s.region r).parent

/-- The operation that encloses an operation. -/
def enclosingOp? (s : Store) (o : OpRef) : Except Fault (Option OpRef) := do
  match (← s.op o).parent with
  | none => return none
  | some b => s.blockOwner? b

/-- The block in which a value becomes available. -/
def homeBlock? (s : Store) (v : ValueRef) : Except Fault (Option BlockRef) := do
  match (← s.value v).origin with
  | .result op _ => return (← s.op op).parent
  | .argument block _ => return some block

/-- Climbs from an operation through the operations that enclose it, at most `fuel` of them. -/
def isWithinFuel (s : Store) (ancestor : OpRef) : Nat → OpRef → Except Fault Bool
  | 0, _ => throw .cyclic
  | fuel + 1, o => do
    if o = ancestor then return true
    match ← s.enclosingOp? o with
    | none => return false
    | some parent => s.isWithinFuel ancestor fuel parent

/-- Whether `ancestor` is `o` or encloses it. -/
def isWithin (s : Store) (ancestor o : OpRef) : Except Fault Bool :=
  s.isWithinFuel ancestor s.depthBound o

/-- The place of an operation in its block. -/
def position? (s : Store) (o : OpRef) : Except Fault (Option Nat) := do
  match (← s.op o).parent with
  | none => return none
  | some b => return (← s.block b).ops.idxOf? o

/-- The operation after an operation in its block. -/
def next? (s : Store) (o : OpRef) : Except Fault (Option OpRef) := do
  match (← s.op o).parent with
  | none => return none
  | some b =>
    let ops := (← s.block b).ops
    match ops.idxOf? o with
    | none => return none
    | some i => return ops[i + 1]?

/-- The operations in the blocks of an operation's regions, in order, without what is nested in
them. -/
def childOps (s : Store) (o : OpRef) : Except Fault (List OpRef) := do
  let regions ← (← s.op o).regions.mapM s.region
  let blocks ← (regions.flatMap (·.blocks)).mapM s.block
  return blocks.flatMap (·.ops)

end Store

end AffineRaising.IR
