/-
# AffineRaising.Affine.Linear — linear sums and the canonical constructors.

A sum `Σ cᵢ·aᵢ + k` is kept as its terms, strictly ascending in their atoms, and its constant.
Coefficients are 64-bit words and wrap.  The canonical constructors of expressions collect their
arguments into such sums and write the sums back as left-nested chains of terms, so that like terms
meet, vanishing ones disappear and the constant comes last.
-/
import AffineRaising.Affine.Expr
import AffineRaising.Affine.Quotient

namespace AffineRaising.Affine

/-- `Σ coefficient · atom + constant`, with the atoms strictly ascending. -/
structure Linear where
  terms : List (Expr × Int64)
  constant : Int64
deriving DecidableEq, Repr

namespace Linear

/-- The empty sum. -/
def zero : Linear := ⟨[], 0⟩

/-- Adds `c · atom` to an ascending list of terms. -/
def addTerm (atom : Expr) (c : Int64) : List (Expr × Int64) → List (Expr × Int64)
  | [] => [(atom, c)]
  | (a, k) :: rest =>
    match atom.compare a with
    | .lt => (atom, c) :: (a, k) :: rest
    | .eq => (a, k + c) :: rest
    | .gt => (a, k) :: addTerm atom c rest

/-- Adds `c · atom` to a sum. -/
def addAtom (lin : Linear) (atom : Expr) (c : Int64) : Linear :=
  { lin with terms := addTerm atom c lin.terms }

/-- Adds `scale · e` to a sum.  Sums are flattened, factors that are constants multiply the scale,
and whatever is neither becomes an atom. -/
def accumulate (lin : Linear) (scale : Int64) : Expr → Linear
  | .const c => { lin with constant := lin.constant + c * scale }
  | .bin .add l r => accumulate (accumulate lin scale l) scale r
  | .bin .mul l r =>
    match l.constant?, r.constant? with
    | _, some c => accumulate lin (scale * c) l
    | some c, none => accumulate lin (scale * c) r
    | none, none => lin.addAtom (.bin .mul l r) scale
  | atom => lin.addAtom atom scale

/-- The sum an expression denotes. -/
def ofExpr (e : Expr) : Linear :=
  accumulate zero 1 e

/-- Sum of two sums. -/
def merge (a b : Linear) : Linear :=
  { terms := b.terms.foldl (fun ts t => addTerm t.1 t.2 ts) a.terms
    constant := a.constant + b.constant }

/-- Multiplies every coefficient and the constant. -/
def scale (lin : Linear) (factor : Int64) : Linear :=
  { terms := lin.terms.map fun t => (t.1, t.2 * factor)
    constant := lin.constant * factor }

/-- Every coefficient and the constant is a multiple of `d`. -/
def divisibleBy (lin : Linear) (d : Int64) : Bool :=
  lin.constant % d == 0 && lin.terms.all fun t => t.2 % d == 0

/-- Divides every coefficient and the constant. -/
def scaleDown (lin : Linear) (d : Int64) : Linear :=
  { terms := lin.terms.map fun t => (t.1, t.2 / d)
    constant := lin.constant / d }

/-- The sum up to multiples of `d`: terms whose coefficient is a multiple disappear, and the
constant becomes its Euclidean remainder. -/
def reduceModulo (lin : Linear) (d : Int64) : Linear :=
  { terms := lin.terms.filter fun t => t.2 % d != 0
    constant := euclideanRemainder lin.constant d }

/-- A term as an expression; a unit coefficient is not written. -/
def termExpr (t : Expr × Int64) : Expr :=
  if t.2 = 1 then t.1 else .bin .mul t.1 (.const t.2)

/-- A left-nested chain of the terms that do not vanish. -/
def termsExpr? (terms : List (Expr × Int64)) : Option Expr :=
  (terms.filter fun t => t.2 != 0).foldl
    (fun acc t =>
      match acc with
      | none => some (termExpr t)
      | some e => some (.bin .add e (termExpr t)))
    none

/-- The canonical expression of a sum: its terms in order, then the constant unless it is zero. -/
def toExpr (lin : Linear) : Expr :=
  match termsExpr? lin.terms with
  | none => .const lin.constant
  | some e => if lin.constant = 0 then e else .bin .add e (.const lin.constant)

end Linear

namespace Expr

/-- Canonical sum. -/
def plus (a b : Expr) : Expr :=
  ((Linear.ofExpr a).merge (Linear.ofExpr b)).toExpr

/-- Canonical product.  A product without a constant side stays as it is, an opaque atom. -/
def times (a b : Expr) : Expr :=
  match a.constant?, b.constant? with
  | _, some c => ((Linear.ofExpr a).scale c).toExpr
  | some c, none => ((Linear.ofExpr b).scale c).toExpr
  | none, none => .bin .mul a b

/-- Canonical negation. -/
def negate (a : Expr) : Expr :=
  a.times (.const (-1))

/-- Canonical difference. -/
def minus (a b : Expr) : Expr :=
  a.plus b.negate

/-- A positive constant divisor. -/
def positive? (e : Expr) : Option Int64 :=
  e.constant?.filter fun d => decide (0 < d)

/-- Canonical quotient by a positive constant, where `quotient` divides constants: a unit divisor
disappears, constants fold, and an exactly divisible sum is divided term by term. -/
def divideBy (op : BinOp) (quotient : Int64 → Int64 → Int64) (a : Expr) (d : Int64) : Expr :=
  if d = 1 then a
  else
    match a.constant? with
    | some c => .const (quotient c d)
    | none =>
      let lin := Linear.ofExpr a
      if lin.divisibleBy d then (lin.scaleDown d).toExpr else .bin op a (.const d)

/-- Canonical floor quotient. -/
def floorDivide (a b : Expr) : Expr :=
  match b.positive? with
  | some d => divideBy .floorDiv floorQuotient a d
  | none => .bin .floorDiv a b

/-- Canonical ceiling quotient. -/
def ceilDivide (a b : Expr) : Expr :=
  match b.positive? with
  | some d => divideBy .ceilDiv ceilQuotient a d
  | none => .bin .ceilDiv a b

/-- Canonical remainder.  Modulo a positive constant, multiples of the divisor drop out of the
dividend. -/
def modulo (a b : Expr) : Expr :=
  match b.positive? with
  | some d =>
    let lin := (Linear.ofExpr a).reduceModulo d
    if lin.terms.isEmpty then .const lin.constant else .bin .mod lin.toExpr b
  | none => .bin .mod a b

/-- The canonical constructor of each operator. -/
def combine : BinOp → Expr → Expr → Expr
  | .add => plus
  | .mul => times
  | .floorDiv => floorDivide
  | .ceilDiv => ceilDivide
  | .mod => modulo

end Expr

end AffineRaising.Affine
