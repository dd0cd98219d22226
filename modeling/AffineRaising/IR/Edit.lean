/-
# AffineRaising.IR.Edit — creating, attaching, rewiring and removing.

Every edit keeps the recorded uses in step with the operands.  Attaching what is attached, owning
what is owned and removing what is used are faults; an edit that faults has no effect, because no
store comes out of it.
-/
import AffineRaising.IR.Store

namespace AffineRaising.IR

/-- A computation that reads and replaces a store, and may fault. -/
abbrev Edit := StateT Store (Except Fault)

/-- Runs a query on the current store. -/
def query {α : Type} (q : Store → Except Fault α) : Edit α := do
  let s ← get
  liftM (q s)

/-! ## Creating -/

/-- What an operation is created from. -/
structure OpSpec where
  name : OpName
  operands : List ValueRef := []
  resultTypes : List Ty := []
  attrs : Dict := []
  regions : List RegionRef := []
  successors : List BlockRef := []

/-- The next `n` value references. -/
def Store.nextValues (s : Store) (n : Nat) : List ValueRef :=
  (List.range n).map fun i => ⟨s.values.size + i⟩

/-- Records the uses that an operation makes of its operands. -/
def Store.addOperandUses (s : Store) (op : OpRef) (operands : List ValueRef) : Store :=
  operands.zipIdx.foldl (fun s v => s.addUse v.1 ⟨op, v.2⟩) s

/-- Makes an operation the owner of a region. -/
def ownRegion (op : OpRef) (r : RegionRef) : Edit Unit := do
  let d ← query (·.region r)
  if d.parent.isSome then throw (.regionOwned r)
  modify (·.setRegion r { d with parent := some op })

/-- Creates an operation outside of any block, with a new value for each result. -/
def createOp (spec : OpSpec) : Edit OpRef := do
  let s ← get
  let op : OpRef := ⟨s.ops.size⟩
  let data : OpData :=
    { name := spec.name
      operands := spec.operands
      results := s.nextValues spec.resultTypes.length
      resultTypes := spec.resultTypes
      attrs := spec.attrs
      regions := spec.regions
      successors := spec.successors
      parent := none }
  let values := spec.resultTypes.zipIdx.map fun t => (⟨.result op t.2, t.1⟩ : ValueData)
  set { s with ops := s.ops.push data, values := s.values ++ values.toArray }
  spec.regions.forM (ownRegion op)
  modify (·.addOperandUses op spec.operands)
  return op

/-- Creates a block outside of any region, with a new value for each argument. -/
def createBlock (argTypes : List Ty) : Edit BlockRef := do
  let s ← get
  let block : BlockRef := ⟨s.blocks.size⟩
  let data : BlockData :=
    { args := s.nextValues argTypes.length, argTypes := argTypes, ops := [], parent := none }
  let values := argTypes.zipIdx.map fun t => (⟨.argument block t.2, t.1⟩ : ValueData)
  set { s with blocks := s.blocks.push data, values := s.values ++ values.toArray }
  return block

/-- Makes a region the owner of a block. -/
def ownBlock (r : RegionRef) (b : BlockRef) : Edit Unit := do
  let d ← query (·.block b)
  if d.parent.isSome then throw (.blockOwned b)
  modify (·.setBlock b { d with parent := some r })

/-- Creates a region from blocks that no region owns. -/
def createRegion (blocks : List BlockRef) : Edit RegionRef := do
  let s ← get
  let region : RegionRef := ⟨s.regions.size⟩
  set { s with regions := s.regions.push ⟨blocks, none⟩ }
  blocks.forM (ownBlock region)
  return region

/-! ## Attaching and detaching -/

/-- Puts a detached operation at the end of a block. -/
def pushOp (block : BlockRef) (op : OpRef) : Edit Unit := do
  let d ← query (·.op op)
  if d.parent.isSome then throw (.opAttached op)
  let b ← query (·.block block)
  modify fun s => (s.setOp op { d with parent := some block }).setBlock block
    { b with ops := b.ops ++ [op] }

/-- Puts a detached operation in front of another one of a block. -/
def insertBefore (block : BlockRef) (before op : OpRef) : Edit Unit := do
  let d ← query (·.op op)
  if d.parent.isSome then throw (.opAttached op)
  let b ← query (·.block block)
  match b.ops.idxOf? before with
  | none => throw (.opNotInBlock before)
  | some i =>
    modify fun s => (s.setBlock block { b with ops := b.ops.take i ++ op :: b.ops.drop i }).setOp op
      { d with parent := some block }

/-- Puts a detached operation in front of another one, or at the end. -/
def insertOp (block : BlockRef) (before : Option OpRef) (op : OpRef) : Edit Unit :=
  match before with
  | some o => insertBefore block o op
  | none => pushOp block op

/-- Takes an operation out of the block it is in, if any. -/
def detach (op : OpRef) : Edit Unit := do
  let d ← query (·.op op)
  match d.parent with
  | none => return
  | some block =>
    let b ← query (·.block block)
    modify fun s => (s.setBlock block { b with ops := b.ops.filter (· != op) }).setOp op
      { d with parent := none }

/-! ## Operands and uses -/

/-- Replaces the operands of an operation. -/
def setOperands (op : OpRef) (operands : List ValueRef) : Edit Unit := do
  let d ← query (·.op op)
  modify fun s => d.operands.foldl (fun s v => s.dropUses v (·.user == op)) s
  modify (·.addOperandUses op operands)
  modify (·.setOp op { d with operands := operands })

/-- Replaces one operand of an operation. -/
def setOperand (op : OpRef) (i : Nat) (v : ValueRef) : Edit Unit := do
  let operands ← query (·.operandsOf op)
  if i < operands.length then setOperands op (operands.set i v)
  else throw (.missingOperand op i)

/-- Redirects a recorded use of `old` to `new`. -/
def redirectUse (new : ValueRef) (u : Use) : Edit Unit := do
  let d ← query (·.op u.user)
  if u.slot < d.operands.length then
    modify (·.setOp u.user { d with operands := d.operands.set u.slot new })
    modify (·.addUse new u)
  else throw (.missingOperand u.user u.slot)

/-- Checks that a recorded use names an operand that is `old`, and redirects it to `new`. -/
def redirectCheckedUse (old new : ValueRef) (u : Use) : Edit Unit := do
  let v ← query (·.operand u.user u.slot)
  if v ≠ old then throw (.staleUse old u)
  redirectUse new u

/-- Replaces a value by another one wherever it is used. -/
def replaceAllUses (old new : ValueRef) : Edit Unit := do
  if old = new then return
  let us := (← get).usesOf old
  modify (·.setUses old [])
  us.forM (redirectCheckedUse old new)

/-- Replaces a value by another one in the operations that a test accepts. -/
def replaceUsesWhere (old new : ValueRef) (accepts : OpRef → Bool) : Edit Unit := do
  if old = new then return
  let us := (← get).usesOf old
  modify (·.setUses old (us.filter fun u => !accepts u.user))
  (us.filter fun u => accepts u.user).forM (redirectUse new)

/-! ## Removing -/

/-- Removes a detached operation whose results are unused: its uses are forgotten. -/
def removeOp (op : OpRef) : Edit Unit := do
  let d ← query (·.op op)
  if d.parent.isSome then throw (.opAttached op)
  let s ← get
  match d.results.find? s.hasUses with
  | some v => throw (.valueInUse v)
  | none =>
    modify fun s => d.operands.zipIdx.foldl (fun s v => s.dropUses v.1 (· == ⟨op, v.2⟩)) s

/-- Erases an operation after everything nested in it, the last nested operation first, so that
values lose their uses before they go away. -/
def eraseWithin : Nat → OpRef → Edit Unit
  | 0, _ => throw .cyclic
  | depth + 1, op => do
    let d ← query (·.op op)
    d.regions.forM fun r => do
      let rd ← query (·.region r)
      rd.blocks.reverse.forM fun b => do
        let bd ← query (·.block b)
        bd.ops.reverse.forM (eraseWithin depth)
    detach op
    removeOp op

/-- Erases an operation and everything nested in it. -/
def eraseOp (op : OpRef) : Edit Unit := do
  let s ← get
  eraseWithin s.depthBound op

/-! ## Attributes and regions -/

/-- Sets an attribute of an operation. -/
def setAttr (op : OpRef) (key : String) (value : Attr) : Edit Unit := do
  let d ← query (·.op op)
  modify (·.setOp op { d with attrs := d.attrs.insert key value })

/-- Takes the regions out of an operation; nobody owns them afterwards. -/
def takeRegions (op : OpRef) : Edit (List RegionRef) := do
  let d ← query (·.op op)
  modify (·.setOp op { d with regions := [] })
  d.regions.forM fun r => do
    let rd ← query (·.region r)
    modify (·.setRegion r { rd with parent := none })
  return d.regions

/-- Exchanges the operands of two operations and leaves the recorded uses alone. -/
def swapOperandLists (a b : OpRef) : Edit Unit := do
  let da ← query (·.op a)
  let db ← query (·.op b)
  modify fun s => (s.setOp a { da with operands := db.operands })
  let db' ← query (·.op b)
  modify (·.setOp b { db' with operands := da.operands })

/-! ## Copying -/

/-- New values by old ones. -/
abbrev Renaming := List (ValueRef × ValueRef)

namespace Renaming

/-- The new value of an old one, if there is one. -/
def get? (m : Renaming) (v : ValueRef) : Option ValueRef :=
  (m.find? fun p => p.1 == v).map (·.2)

/-- The new value of an old one; the old one itself if there is none. -/
def apply (m : Renaming) (v : ValueRef) : ValueRef :=
  (m.get? v).getD v

/-- Sets the new value of an old one. -/
def insert (m : Renaming) (old new : ValueRef) : Renaming :=
  if m.any fun p => p.1 == old then m.map fun p => if p.1 == old then (old, new) else p
  else m ++ [(old, new)]

/-- Sets the new values of a list of old ones. -/
def insertAll (m : Renaming) (olds news : List ValueRef) : Renaming :=
  (olds.zip news).foldl (fun m p => m.insert p.1 p.2) m

end Renaming

/-- Copies a block without its operations. -/
def cloneBlockHeader (m : Renaming) (b : BlockRef) : Edit (BlockRef × Renaming) := do
  let d ← query (·.block b)
  let b' ← createBlock d.argTypes
  let s ← get
  return (b', m.insertAll (s.argsOf b) (s.argsOf b'))

/-- Copies the headers of blocks in order. -/
def cloneBlockHeaders (m : Renaming) : List BlockRef → Edit (List BlockRef × Renaming)
  | [] => return ([], m)
  | b :: bs => do
    let (b', m) ← cloneBlockHeader m b
    let (bs', m) ← cloneBlockHeaders m bs
    return (b' :: bs', m)

/-- Redirects the successors of an operation along a pairing of blocks. -/
def retargetSuccessors (pairs : List (BlockRef × BlockRef)) (op : OpRef) : Edit Unit := do
  let d ← query (·.op op)
  let retarget (b : BlockRef) : BlockRef :=
    ((pairs.find? fun p => p.1 == b).map (·.2)).getD b
  modify (·.setOp op { d with successors := d.successors.map retarget })

/-- Copies operations to the end of a block with a copier for single operations. -/
def cloneOpsWith (clone : Renaming → OpRef → Edit (OpRef × Renaming))
    (pairs : List (BlockRef × BlockRef)) (target : BlockRef) :
    Renaming → List OpRef → Edit Renaming
  | m, [] => return m
  | m, op :: ops => do
    let (op', m) ← clone m op
    retargetSuccessors pairs op'
    pushOp target op'
    cloneOpsWith clone pairs target m ops

/-- Copies the operations of blocks into the copies of the blocks. -/
def cloneBodiesWith (clone : Renaming → OpRef → Edit (OpRef × Renaming))
    (pairs : List (BlockRef × BlockRef)) :
    Renaming → List (BlockRef × BlockRef) → Edit Renaming
  | m, [] => return m
  | m, (b, b') :: rest => do
    let d ← query (·.block b)
    let m ← cloneOpsWith clone pairs b' m d.ops
    cloneBodiesWith clone pairs m rest

/-- Copies a region: its blocks first, then their operations, then the region itself. -/
def cloneRegionWith (clone : Renaming → OpRef → Edit (OpRef × Renaming)) (m : Renaming)
    (r : RegionRef) : Edit (RegionRef × Renaming) := do
  let d ← query (·.region r)
  let (blocks', m) ← cloneBlockHeaders m d.blocks
  let pairs := d.blocks.zip blocks'
  let m ← cloneBodiesWith clone pairs m pairs
  let r' ← createRegion blocks'
  return (r', m)

/-- Copies regions in order. -/
def cloneRegionsWith (clone : Renaming → OpRef → Edit (OpRef × Renaming)) :
    Renaming → List RegionRef → Edit (List RegionRef × Renaming)
  | m, [] => return ([], m)
  | m, r :: rs => do
    let (r', m) ← cloneRegionWith clone m r
    let (rs', m) ← cloneRegionsWith clone m rs
    return (r' :: rs', m)

/-- Copies an operation with everything nested in it, no deeper than a bound. -/
def cloneWithin : Nat → Renaming → OpRef → Edit (OpRef × Renaming)
  | 0, _, _ => throw .cyclic
  | depth + 1, m, op => do
    let d ← query (·.op op)
    let operands := d.operands.map m.apply
    let (regions, m) ← cloneRegionsWith (cloneWithin depth) m d.regions
    let op' ← createOp
      { name := d.name, operands := operands, resultTypes := d.resultTypes, attrs := d.attrs,
        regions := regions, successors := d.successors }
    let s ← get
    return (op', m.insertAll (s.resultsOf op) (s.resultsOf op'))

/-- Copies an operation with everything nested in it.  Operands that the renaming knows are renamed;
the values defined by the copy are added to the renaming.  The copy is in no block. -/
def cloneOp (m : Renaming) (op : OpRef) : Edit (OpRef × Renaming) := do
  let s ← get
  cloneWithin s.depthBound m op

end AffineRaising.IR
