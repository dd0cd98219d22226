/-
# AffineRaising.Surface.AffineGrammar — reading affine maps and sets.

    affine_map<(d0, d1)[s0] -> (d0 * 4 + s0, d1 floordiv 2)>
    affine_set<(d0)[s0] : (d0 - s0 >= 0, d0 == 0)>

Names are positional: the n-th name in parentheses is dimension n and the n-th name in brackets is
symbol n, however it is spelled.  Expressions are built by the canonical constructors as they are
read.
-/
import AffineRaising.Affine.ConstraintSet
import AffineRaising.Surface.Lexeme

namespace AffineRaising.Surface

open AffineRaising.Affine AffineRaising.Text AffineRaising.Text.Reader

/-- The names bound by a map or set. -/
structure Bindings where
  dims : List String
  symbols : List String

/-- The identifier a name stands for; dimensions hide symbols of the same name. -/
def Bindings.lookup? (b : Bindings) (name : String) : Option Expr :=
  match b.dims.idxOf? name with
  | some i => some (.dim i)
  | none => (b.symbols.idxOf? name).map .symbol

/-- Reads a binding list. -/
def bindings : Reader Bindings := do
  let dims ← bracketed '(' ')' (commaList identifier)
  let symbols ← optional (do blanks; bracketed '[' ']' (commaList identifier))
  return ⟨dims, symbols.getD []⟩

/-- The operator of a product, after blanks. -/
def productOperator : Reader (Option (Expr → Expr → Expr)) := do
  blanks
  let op : Reader BinOp :=
    orElse (do literal "*"; return .mul) <|
    orElse (do literal "floordiv"; return .floorDiv) <|
    orElse (do literal "ceildiv"; return .ceilDiv)
      (do literal "mod"; return .mod)
  let found ← optional op
  return found.map Expr.combine

/-- The operator of a sum, after blanks. -/
def sumOperator : Reader (Option (Expr → Expr → Expr)) := do
  blanks
  let op : Reader (Expr → Expr → Expr) :=
    orElse (do char '+'; return Expr.plus) (do char '-'; return Expr.minus)
  optional op

/-- A sum of products of factors. -/
def sumOf (factor : Reader Expr) : Reader Expr :=
  chain sumOperator (chain productOperator factor)

/-- A factor: a negation, a parenthesised sum, a number or a name.  The first argument bounds the
nesting. -/
def factor (b : Bindings) : Nat → Reader Expr
  | 0 => fail
  | depth + 1 => do
    blanks
    if ← minusSign then
      let e ← factor b depth
      return e.negate
    if (← optional (char '(')).isSome then
      let e ← sumOf (factor b depth)
      blanks
      char ')'
      return e
    match ← optional natural with
    | some n =>
      let c ← ofOption (wordOf? n)
      return .const c
    | none =>
      let name ← identifier
      ofOption (b.lookup? name)

/-- An expression over the bound names.  Each level of nesting reads a character. -/
def expression (b : Bindings) : Reader Expr := fun s =>
  sumOf (factor b (s.length + 1)) s

/-- Items separated by commas, between parentheses and the closing angle bracket. -/
def resultList {α : Type} (item : Reader α) : Reader (List α) := do
  blanks
  char '('
  blanks
  let items ← separated item (do blanks; char ','; blanks)
  blanks
  char ')'
  blanks
  char '>'
  return items

/-- Reads an affine map. -/
def affineMap : Reader Map := do
  literal "affine_map"
  blanks
  char '<'
  blanks
  let b ← bindings
  blanks
  literal "->"
  let results ← resultList (expression b)
  return ⟨b.dims.length, b.symbols.length, results⟩

/-- Reads one constraint; a right side other than zero moves to the left. -/
def constraint (b : Bindings) : Reader Constraint := do
  let lhs ← expression b
  blanks
  let relation ←
    orElse (do literal ">="; return Relation.atLeast) (do literal "=="; return Relation.equal)
  let rhs ← expression b
  return ⟨lhs.minus rhs, relation⟩

/-- Reads a constraint set. -/
def affineSet : Reader ConstraintSet := do
  literal "affine_set"
  blanks
  char '<'
  blanks
  let b ← bindings
  blanks
  char ':'
  let constraints ← resultList (constraint b)
  return ⟨b.dims.length, b.symbols.length, constraints⟩

end AffineRaising.Surface
