/-
# AffineRaising.Affine.Map — affine maps `(d0, …)[s0, …] -> (e0, …)`.

A map lists result expressions over a number of dimensions and of symbols.  The operands bound to a
map are laid out with the dimensions first and the symbols after them.
-/
import AffineRaising.Affine.Eval
import AffineRaising.Affine.Text

namespace AffineRaising.Affine

/-- A list of result expressions over `numDims` dimensions and `numSymbols` symbols. -/
structure Map where
  numDims : Nat
  numSymbols : Nat
  results : List Expr
deriving DecidableEq, Repr

namespace Map

/-- `() -> (value)`. -/
def constant (value : Int64) : Map := ⟨0, 0, [.const value]⟩

/-- `()[s0, …, s(n-1)] -> (s0, …, s(n-1))`. -/
def symbolIdentity (n : Nat) : Map := ⟨0, n, (List.range n).map .symbol⟩

/-- `(d0, …, d(n-1)) -> (d0, …, d(n-1))`. -/
def dimIdentity (n : Nat) : Map := ⟨n, 0, (List.range n).map .dim⟩

/-- Number of operands that the map takes. -/
def numInputs (m : Map) : Nat := m.numDims + m.numSymbols

/-- Number of results. -/
def numResults (m : Map) : Nat := m.results.length

/-- The constant of a map whose only result is one. -/
def singleConstant? (m : Map) : Option Int64 :=
  match m.results with
  | [e] => e.constant?
  | _ => none

/-- Whether dimension `position` occurs in a result. -/
def usesDim (m : Map) (position : Nat) : Bool :=
  m.results.any (·.usesDim position)

/-- Whether symbol `position` occurs in a result. -/
def usesSymbol (m : Map) (position : Nat) : Bool :=
  m.results.any (·.usesSymbol position)

/-- Substitutes in every result, and binds the answer to new numbers of dimensions and symbols. -/
def substitute (m : Map) (dims syms : List Expr) (numDims numSymbols : Nat) :
    Except DomainError Map := do
  let results ← m.results.mapM (·.substitute dims syms)
  return ⟨numDims, numSymbols, results⟩

/-- Every result in canonical form. -/
def simplify (m : Map) : Map :=
  { m with results := m.results.map Expr.simplify }

/-- Keeps the first of equal results. -/
def distinctResults : List Expr → List Expr → List Expr
  | kept, [] => kept
  | kept, e :: rest =>
    if e ∈ kept then distinctResults kept rest else distinctResults (kept ++ [e]) rest

/-- The map without repeated results. -/
def dropRepeatedResults (m : Map) : Map :=
  { m with results := distinctResults [] m.results }

/-- Evaluates results in order, up to the first one without a value. -/
def evalResults (dims syms : List Int64) : List Expr → Except DomainError (Option (List Int64))
  | [] => .ok (some [])
  | e :: rest => do
    match ← e.eval dims syms with
    | none => return none
    | some v =>
      match ← evalResults dims syms rest with
      | none => return none
      | some vs => return some (v :: vs)

/-- The results at a point, if all have a value there. -/
def eval (m : Map) (dims syms : List Int64) : Except DomainError (Option (List Int64)) :=
  evalResults dims syms m.results

/-- The text of a map. -/
def render (m : Map) : String :=
  "affine_map<" ++ renderBindings m.numDims m.numSymbols ++ " -> (" ++
    commaSeparated (m.results.map Expr.render) ++ ")>"

end Map

end AffineRaising.Affine
