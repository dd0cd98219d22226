/-
# AffineRaising.IR.Entity — references to the things a program is made of.

Operations, values, blocks and regions are numbered in the order in which they come into being,
each kind for itself, and a number is never given twice.  A reference is such a number.  `Fault`
lists the ways in which references and edits can be misused.
-/
import AffineRaising.Affine.Substitution

namespace AffineRaising.IR

/-- A reference to an operation. -/
structure OpRef where
  index : Nat
deriving DecidableEq, Repr

/-- A reference to a value. -/
structure ValueRef where
  index : Nat
deriving DecidableEq, Repr

/-- A reference to a block. -/
structure BlockRef where
  index : Nat
deriving DecidableEq, Repr

/-- A reference to a region. -/
structure RegionRef where
  index : Nat
deriving DecidableEq, Repr

/-- How messages name an operation. -/
def OpRef.render (o : OpRef) : String := "op" ++ toString o.index

/-- How messages name a value. -/
def ValueRef.render (v : ValueRef) : String := "v" ++ toString v.index

/-- How messages name a block. -/
def BlockRef.render (b : BlockRef) : String := "block" ++ toString b.index

/-- The name of an operation: its dialect and its name there. -/
structure OpName where
  dialect : String
  name : String
deriving DecidableEq, Repr

/-- The dotted spelling of a name. -/
def OpName.render (n : OpName) : String := n.dialect ++ "." ++ n.name

/-- Splits a dotted name at its first point. -/
def OpName.ofText? (text : String) : Option OpName :=
  let cs := text.toList
  match cs.dropWhile (· != '.') with
  | [] => none
  | _ :: rest => some ⟨String.ofList (cs.takeWhile (· != '.')), String.ofList rest⟩

/-- Where a value comes from. -/
inductive Origin where
  /-- Result `index` of an operation. -/
  | result (op : OpRef) (index : Nat)
  /-- Argument `index` of a block. -/
  | argument (block : BlockRef) (index : Nat)
deriving DecidableEq, Repr

/-- The operation that defines a value, if it is a result. -/
def Origin.op? : Origin → Option OpRef
  | .result op _ => some op
  | .argument _ _ => none

/-- How messages name an origin. -/
def Origin.render : Origin → String
  | .result op i => op.render ++ "#" ++ toString i
  | .argument block i => block.render ++ "#" ++ toString i

/-- One use of a value: operand `slot` of operation `user`. -/
structure Use where
  user : OpRef
  slot : Nat
deriving DecidableEq, Repr

/-- Misuse of references and edits. -/
inductive Fault where
  /-- No operation has this number. -/
  | unknownOp (op : OpRef)
  /-- No value has this number. -/
  | unknownValue (value : ValueRef)
  /-- No block has this number. -/
  | unknownBlock (block : BlockRef)
  /-- No region has this number. -/
  | unknownRegion (region : RegionRef)
  /-- An operation has fewer operands than were asked for. -/
  | missingOperand (op : OpRef) (index : Nat)
  /-- An operation has fewer results than were asked for. -/
  | missingResult (op : OpRef) (index : Nat)
  /-- An operation has fewer regions than were asked for. -/
  | missingRegion (op : OpRef) (index : Nat)
  /-- The operation is in a block already, or still. -/
  | opAttached (op : OpRef)
  /-- The operation stands in no block, or not in the one that was named. -/
  | opNotInBlock (op : OpRef)
  /-- The block belongs to a region already. -/
  | blockOwned (block : BlockRef)
  /-- The region belongs to an operation already. -/
  | regionOwned (region : RegionRef)
  /-- A result of an operation that goes away is still used. -/
  | valueInUse (value : ValueRef)
  /-- A recorded use names an operand that is another value. -/
  | staleUse (value : ValueRef) (use : Use)
  /-- A replacement has another number of results. -/
  | resultCount (op : OpRef)
  /-- An affine expression was evaluated or instantiated outside its domain. -/
  | affine (fault : Affine.DomainError)
  /-- A walk through nested or defining operations came back to where it had been. -/
  | cyclic
deriving DecidableEq, Repr

/-- Reads an affine computation as one on programs. -/
def liftAffine {α : Type} : Except Affine.DomainError α → Except Fault α
  | .ok a => .ok a
  | .error f => .error (.affine f)

end AffineRaising.IR
