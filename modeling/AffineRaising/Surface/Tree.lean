/-
# AffineRaising.Surface.Tree — operations as they are written.

The tree a text stands for before names are resolved: operands, results and successors are still
names.  Types and attributes hold no names of values and are final already.
-/
import AffineRaising.IR.Attribute

namespace AffineRaising.Surface

open AffineRaising.IR (Ty Attr)

/-- A name with its type, in a signature or a block header. -/
structure TypedName where
  name : String
  ty : Ty

/-- All of an operation but its regions. -/
structure OpHead where
  results : List String
  dialect : String
  name : String
  /-- The symbol after the name. -/
  symbol : Option String
  /-- The signature of a function-like operation. -/
  params : List TypedName
  operands : List String
  successors : List String
  returnType : Option Ty
  attrs : List (String × Attr)
  resultTypes : List Ty

mutual

/-- An operation, with the regions that follow it. -/
inductive Op where
  | mk (head : OpHead) (regions : List Region)

/-- A region: its blocks in order. -/
inductive Region where
  | mk (blocks : List Block)

/-- A block with its label, arguments and operations. -/
inductive Block where
  | mk (label : String) (args : List TypedName) (ops : List Op)

end

end AffineRaising.Surface
