/-
# AffineRaising.Raise.Rebind — canonical operand lists.

A map or set is bound to operands, dimensions first.  In canonical form every operand is used,
none is bound twice in the same kind of position, constants are part of the expressions, and
dimensions that are symbols stand in symbol positions.
-/
import AffineRaising.Raise.Classify

namespace AffineRaising.Raise

open AffineRaising.IR AffineRaising.Ops
open AffineRaising.Affine (Expr Map ConstraintSet)

/-- A map and the operands bound to it. -/
structure Binding where
  map : Map
  operands : List ValueRef
deriving DecidableEq, Repr

/-- The place of a value in a list, at the end of which it is put if it is not there. -/
def slot (list : List ValueRef) (v : ValueRef) : Nat × List ValueRef :=
  match list.idxOf? v with
  | some i => (i, list)
  | none => (list.length, list ++ [v])

/-- Values bound to dimensions and to symbols. -/
structure Positions where
  dims : List ValueRef
  symbols : List ValueRef
deriving DecidableEq, Repr

namespace Positions

/-- Nothing bound. -/
def empty : Positions := ⟨[], []⟩

/-- Binds a value to a dimension. -/
def dim (p : Positions) (v : ValueRef) : Expr × Positions :=
  let (i, dims) := slot p.dims v
  (.dim i, { p with dims := dims })

/-- Binds a value to a symbol. -/
def symbol (p : Positions) (v : ValueRef) : Expr × Positions :=
  let (i, symbols) := slot p.symbols v
  (.symbol i, { p with symbols := symbols })

/-- The operands, dimensions first. -/
def operands (p : Positions) : List ValueRef := p.dims ++ p.symbols

end Positions

/-- What replaces a symbol of a map: zero if it is not used, a constant, or a symbol position. -/
def rebindSymbol (s : Store) (used : Bool) (p : Positions) (v : ValueRef) :
    Except Fault (Expr × Positions) := do
  if !used then return (.const 0, p)
  match ← constantOf? s v with
  | some c => return (.const c, p)
  | none => return p.symbol v

/-- What replaces a dimension of a map: zero if it is not used, a constant, a symbol position if it
is a symbol, or a dimension position. -/
def rebindDim (s : Store) (used : Bool) (p : Positions) (v : ValueRef) :
    Except Fault (Expr × Positions) := do
  if !used then return (.const 0, p)
  match ← constantOf? s v with
  | some c => return (.const c, p)
  | none => if ← isSymbol s v then return p.symbol v else return p.dim v

/-- Rebinds operands in order; the number is the position of the first one. -/
def rebindList (rebind : Nat → Positions → ValueRef → Except Fault (Expr × Positions)) :
    Nat → Positions → List ValueRef → Except Fault (List Expr × Positions)
  | _, p, [] => return ([], p)
  | i, p, v :: rest => do
    let (e, p) ← rebind i p v
    let (es, p) ← rebindList rebind (i + 1) p rest
    return (e :: es, p)

/-- One round: symbols are rebound before dimensions. -/
def rebindOnce (s : Store) (b : Binding) : Except Fault Binding := do
  let dims := b.operands.take b.map.numDims
  let symbols := b.operands.drop b.map.numDims
  let (symExprs, p) ←
    rebindList (fun j => rebindSymbol s (b.map.usesSymbol j)) 0 Positions.empty symbols
  let (dimExprs, p) ← rebindList (fun i => rebindDim s (b.map.usesDim i)) 0 p dims
  let map ← liftAffine (b.map.substitute dimExprs symExprs p.dims.length p.symbols.length)
  return ⟨map, p.operands⟩

/-- Rounds until nothing moves: folding can leave an operand unused. -/
def rebindFuel (s : Store) : Nat → Binding → Except Fault Binding
  | 0, _ => throw .cyclic
  | fuel + 1, b => do
    let next ← rebindOnce s b
    if next = b then return next else rebindFuel s fuel next

/-- The canonical form of a map with its operands.  Every round but the first and the last drops an
operand. -/
def canonicalize (s : Store) (b : Binding) : Except Fault Binding :=
  rebindFuel s (2 * b.operands.length + 8) b

/-! ## Sets -/

/-- A constraint set and the operands bound to it. -/
structure SetBinding where
  set : ConstraintSet
  operands : List ValueRef
deriving DecidableEq, Repr

/-- The expressions of the constraints as a map. -/
def SetBinding.toBinding (b : SetBinding) : Binding :=
  ⟨⟨b.set.numDims, b.set.numSymbols, b.set.exprs⟩, b.operands⟩

/-- Puts new expressions and operands in the place of the old ones, keeping the relations. -/
def SetBinding.withBinding (b : SetBinding) (new : Binding) : SetBinding :=
  { set :=
      { numDims := new.map.numDims
        numSymbols := new.map.numSymbols
        constraints := List.zipWith (fun c e => { c with expr := e }) b.set.constraints
          new.map.results }
    operands := new.operands }

/-- The canonical form of a set with its operands. -/
def canonicalizeSet (s : Store) (b : SetBinding) : Except Fault SetBinding := do
  return b.withBinding (← canonicalize s b.toBinding)

end AffineRaising.Raise
