/-
# AffineRaising.Ops.Arith — integer arithmetic.

The operations of the `arith` dialect by kind, the predicates of comparisons, and the parts of
constants, comparisons, selections and casts.
-/
import AffineRaising.IR.Edit

namespace AffineRaising.Ops

open AffineRaising.IR

/-! ## Kinds -/

/-- The operations of integer arithmetic. -/
inductive ArithKind where
  | const
  | add
  | sub
  | mul
  /-- Signed quotient, rounded toward zero. -/
  | divS
  | divU
  /-- Signed remainder, with the sign of the dividend. -/
  | remS
  | remU
  | and
  | cmp
  | select
  /-- Conversion between the index type and integers of a width. -/
  | indexCast
  | trunc
  | extU
  | extS
deriving DecidableEq, Repr

namespace ArithKind

/-- All kinds. -/
def all : List ArithKind :=
  [.const, .add, .sub, .mul, .divS, .divU, .remS, .remU, .and, .cmp, .select, .indexCast, .trunc,
    .extU, .extS]

/-- The name of a kind inside its dialect. -/
def name : ArithKind → String
  | .const => "const"
  | .add => "add"
  | .sub => "sub"
  | .mul => "mul"
  | .divS => "divs"
  | .divU => "divu"
  | .remS => "rems"
  | .remU => "remu"
  | .and => "and"
  | .cmp => "cmp"
  | .select => "select"
  | .indexCast => "index_cast"
  | .trunc => "trunc"
  | .extU => "extu"
  | .extS => "exts"

/-- The full name of a kind. -/
def opName (k : ArithKind) : OpName := ⟨"arith", k.name⟩

/-- The kind that a name denotes. -/
def ofName? (n : OpName) : Option ArithKind :=
  all.find? fun k => k.opName == n

/-- Casts, which keep what a number means as a subscript. -/
def isCast : ArithKind → Bool
  | .indexCast | .trunc | .extU | .extS => true
  | _ => false

end ArithKind

/-- The kind of an operation, if it is one of integer arithmetic. -/
def arithKind? (s : Store) (o : OpRef) : Except Fault (Option ArithKind) := do
  return ArithKind.ofName? (← s.nameOf o)

/-! ## Predicates -/

/-- The predicates of comparisons. -/
inductive Predicate where
  | eq
  | ne
  | slt
  | sle
  | sgt
  | sge
  | ult
  | ule
  | ugt
  | uge
deriving DecidableEq, Repr

namespace Predicate

/-- All predicates. -/
def all : List Predicate := [.eq, .ne, .slt, .sle, .sgt, .sge, .ult, .ule, .ugt, .uge]

/-- The symbol of a predicate. -/
def name : Predicate → String
  | .eq => "eq"
  | .ne => "ne"
  | .slt => "slt"
  | .sle => "sle"
  | .sgt => "sgt"
  | .sge => "sge"
  | .ult => "ult"
  | .ule => "ule"
  | .ugt => "ugt"
  | .uge => "uge"

/-- The predicate of a symbol. -/
def ofName? (name : String) : Option Predicate :=
  all.find? fun p => p.name == name

/-- Predicates that read their operands as unsigned numbers. -/
def isUnsigned : Predicate → Bool
  | .ult | .ule | .ugt | .uge => true
  | _ => false

/-- The signed predicate with the same ordering. -/
def signed : Predicate → Predicate
  | .ult => .slt
  | .ule => .sle
  | .ugt => .sgt
  | .uge => .sge
  | p => p

end Predicate

/-! ## Parts of operations -/

/-- The number of a constant, if its attribute is one. -/
def constValue? (s : Store) (o : OpRef) : Except Fault (Option Int64) := do
  return (← s.attr? o "value").bind Attr.int?

/-- The number that a value holds, if a constant defines it. -/
def constantOf? (s : Store) (v : ValueRef) : Except Fault (Option Int64) := do
  match ← s.definingOp? v with
  | none => return none
  | some op =>
    match ← arithKind? s op with
    | some .const => constValue? s op
    | _ => return none

/-- The predicate of a comparison, if its attribute names one. -/
def cmpPredicate? (s : Store) (o : OpRef) : Except Fault (Option Predicate) := do
  return ((← s.attr? o "predicate").bind Attr.symbol?).bind Predicate.ofName?

/-- The sides of a comparison. -/
structure Comparison where
  lhs : ValueRef
  rhs : ValueRef
deriving DecidableEq, Repr

/-- The sides of a comparison. -/
def comparison (s : Store) (o : OpRef) : Except Fault Comparison := do
  return ⟨← s.operand o 0, ← s.operand o 1⟩

/-- The operands of a selection: the condition and the two choices. -/
structure Selection where
  condition : ValueRef
  whenTrue : ValueRef
  whenFalse : ValueRef
deriving DecidableEq, Repr

/-- The operands of a selection. -/
def selection (s : Store) (o : OpRef) : Except Fault Selection := do
  return ⟨← s.operand o 0, ← s.operand o 1, ← s.operand o 2⟩

/-! ## New operations -/

/-- A constant. -/
def constantSpec (ty : Ty) (value : Int64) : OpSpec :=
  { name := ArithKind.const.opName, resultTypes := [ty], attrs := [("value", .int value)] }

/-- An operation on two operands. -/
def binarySpec (kind : ArithKind) (lhs rhs : ValueRef) (ty : Ty) : OpSpec :=
  { name := kind.opName, operands := [lhs, rhs], resultTypes := [ty] }

/-- A comparison. -/
def cmpSpec (predicate : Predicate) (lhs rhs : ValueRef) (ty : Ty) : OpSpec :=
  { name := ArithKind.cmp.opName, operands := [lhs, rhs], resultTypes := [ty],
    attrs := [("predicate", .symbol predicate.name)] }

/-- A selection. -/
def selectSpec (condition a b : ValueRef) (ty : Ty) : OpSpec :=
  { name := ArithKind.select.opName, operands := [condition, a, b], resultTypes := [ty] }

/-- An index cast. -/
def indexCastSpec (v : ValueRef) (ty : Ty) : OpSpec :=
  { name := ArithKind.indexCast.opName, operands := [v], resultTypes := [ty] }

end AffineRaising.Ops
