/-
# AffineRaising.Ops.Access — memory accesses and affine applications.

Plain accesses take a subscript per operand.  Affine accesses take the operands of an affine map,
whose results are the subscripts; the value and the memory come in front of them.
-/
import AffineRaising.IR.Edit

namespace AffineRaising.Ops

open AffineRaising.IR AffineRaising.Affine

/-- Application of an affine map. -/
def applyName : OpName := ⟨"affine", "apply"⟩

/-- Plain load. -/
def loadName : OpName := ⟨"mem", "load"⟩

/-- Plain store. -/
def storeName : OpName := ⟨"mem", "store"⟩

/-- The affine memory accesses. -/
inductive AccessKind where
  | load
  | store
  | prefetch
  | vectorLoad
  | vectorStore
deriving DecidableEq, Repr

namespace AccessKind

/-- All kinds. -/
def all : List AccessKind := [.load, .store, .prefetch, .vectorLoad, .vectorStore]

/-- The full name of a kind. -/
def opName : AccessKind → OpName
  | .load => ⟨"affine", "load"⟩
  | .store => ⟨"affine", "store"⟩
  | .prefetch => ⟨"affine", "prefetch"⟩
  | .vectorLoad => ⟨"affine", "vector_load"⟩
  | .vectorStore => ⟨"affine", "vector_store"⟩

/-- The kind that a name denotes. -/
def ofName? (n : OpName) : Option AccessKind :=
  all.find? fun k => k.opName == n

/-- Index of the first operand that the map takes. -/
def mapStart : AccessKind → Nat
  | .load | .prefetch | .vectorLoad => 1
  | .store | .vectorStore => 2

end AccessKind

/-- The map of an application or affine access. -/
def opMap? (s : Store) (o : OpRef) : Except Fault (Option Map) := do
  return (← s.attr? o "map").bind Attr.map?

/-- Sets the map of an application or affine access. -/
def setOpMap (o : OpRef) (m : Map) : Edit Unit :=
  setAttr o "map" (.map m)

/-- The operands from a position on. -/
def operandsFrom (s : Store) (o : OpRef) (start : Nat) : Except Fault (List ValueRef) := do
  let operands ← s.operandsOf o
  if start ≤ operands.length then return operands.drop start
  else throw (.missingOperand o operands.length)

/-- An application of a map. -/
def applySpec (m : Map) (operands : List ValueRef) (ty : Ty) : OpSpec :=
  { name := applyName, operands := operands, resultTypes := [ty], attrs := [("map", .map m)] }

/-- An affine load. -/
def affineLoadSpec (memory : ValueRef) (m : Map) (operands : List ValueRef) (ty : Ty) : OpSpec :=
  { name := AccessKind.load.opName, operands := memory :: operands, resultTypes := [ty],
    attrs := [("map", .map m)] }

/-- An affine store. -/
def affineStoreSpec (value memory : ValueRef) (m : Map) (operands : List ValueRef) : OpSpec :=
  { name := AccessKind.store.opName, operands := value :: memory :: operands,
    attrs := [("map", .map m)] }

/-- An allocation. -/
def allocaSpec (ty : Ty) : OpSpec :=
  { name := ⟨"mem", "alloca"⟩, resultTypes := [ty] }

/-- A plain load. -/
def loadSpec (memory : ValueRef) (indices : List ValueRef) (ty : Ty) : OpSpec :=
  { name := loadName, operands := memory :: indices, resultTypes := [ty] }

/-- A plain store. -/
def storeSpec (value memory : ValueRef) (indices : List ValueRef) : OpSpec :=
  { name := storeName, operands := value :: memory :: indices }

end AffineRaising.Ops
