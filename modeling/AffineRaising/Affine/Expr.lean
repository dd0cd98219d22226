/-
# AffineRaising.Affine.Expr — quasi-affine integer expressions.

An expression is built from dimensions `d0, d1, …`, symbols `s0, s1, …` and 64-bit constants by
five binary operators.  The order of the constructors is the order of atoms in canonical sums:
dimensions before symbols before compound terms (`Expr.compare`).
-/

namespace AffineRaising.Affine

/-- The binary operators, in the order in which canonical sums list them. -/
inductive BinOp where
  | add
  | mul
  | floorDiv
  | ceilDiv
  | mod
deriving DecidableEq, Repr

/-- Position of an operator in the order of compound terms. -/
def BinOp.rank : BinOp → Nat
  | .add => 0
  | .mul => 1
  | .floorDiv => 2
  | .ceilDiv => 3
  | .mod => 4

/-- A quasi-affine integer expression. -/
inductive Expr where
  | dim (position : Nat)
  | symbol (position : Nat)
  | const (value : Int64)
  | bin (op : BinOp) (lhs rhs : Expr)
deriving DecidableEq, Repr

namespace Expr

/-- The total order of expressions: dimensions, symbols, constants, then compound terms by operator
and by their sides from left to right. -/
def compare : Expr → Expr → Ordering
  | .dim a, .dim b => Ord.compare a b
  | .dim _, _ => .lt
  | .symbol _, .dim _ => .gt
  | .symbol a, .symbol b => Ord.compare a b
  | .symbol _, _ => .lt
  | .const _, .dim _ => .gt
  | .const _, .symbol _ => .gt
  | .const a, .const b => Ord.compare a b
  | .const _, .bin _ _ _ => .lt
  | .bin o l r, .bin o' l' r' =>
    (Ord.compare o.rank o'.rank).then ((l.compare l').then (r.compare r'))
  | .bin _ _ _, _ => .gt

/-- The number a constant expression stands for. -/
def constant? : Expr → Option Int64
  | .const c => some c
  | _ => none

/-- The position of a bare dimension. -/
def dim? : Expr → Option Nat
  | .dim d => some d
  | _ => none

/-- The position of a bare symbol. -/
def symbol? : Expr → Option Nat
  | .symbol s => some s
  | _ => none

/-- A constant expression. -/
def isConstant (e : Expr) : Bool :=
  e.constant?.isSome

/-- A compound expression, as opposed to an identifier or a constant. -/
def isCompound : Expr → Bool
  | .bin _ _ _ => true
  | _ => false

/-- Number of nodes of the tree. -/
def size : Expr → Nat
  | .bin _ l r => 1 + l.size + r.size
  | _ => 1

/-- Whether dimension `position` occurs. -/
def usesDim (position : Nat) : Expr → Bool
  | .dim d => d == position
  | .bin _ l r => l.usesDim position || r.usesDim position
  | _ => false

/-- Whether symbol `position` occurs. -/
def usesSymbol (position : Nat) : Expr → Bool
  | .symbol s => s == position
  | .bin _ l r => l.usesSymbol position || r.usesSymbol position
  | _ => false

/-- Every product has a constant side, and every quotient and remainder a constant divisor. -/
def isPure : Expr → Bool
  | .bin .add l r => l.isPure && r.isPure
  | .bin .mul l r => (l.isConstant || r.isConstant) && l.isPure && r.isPure
  | .bin _ l r => r.isConstant && l.isPure && r.isPure
  | _ => true

end Expr

/-- Inserts an expression into a strictly ascending list, dropping it if it is there already. -/
def insertExpr (e : Expr) : List Expr → List Expr
  | [] => [e]
  | x :: xs =>
    match e.compare x with
    | .lt => e :: x :: xs
    | .eq => x :: xs
    | .gt => x :: insertExpr e xs

/-- The distinct members of a list in ascending order. -/
def sortExprs (es : List Expr) : List Expr :=
  es.foldl (fun sorted e => insertExpr e sorted) []

end AffineRaising.Affine
