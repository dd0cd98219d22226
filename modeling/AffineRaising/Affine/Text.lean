/-
# AffineRaising.Affine.Text — how expressions are written.

Sums are written flat, with a minus sign in front of negative constants and of terms with a negative
coefficient.  The left side of a product-like operator is parenthesised when it is a sum or a
negation; the right side whenever it is compound.
-/
import AffineRaising.Affine.Expr

namespace AffineRaising.Affine

/-- A signed word in decimal. -/
def decimal (c : Int64) : String :=
  toString c.toInt

/-- The magnitude of a word in decimal. -/
def decimalMagnitude (c : Int64) : String :=
  toString c.toInt.natAbs

/-- The sign with which a product-like operator is written. -/
def BinOp.sign : BinOp → String
  | .add => "+"
  | .mul => "*"
  | .floorDiv => "floordiv"
  | .ceilDiv => "ceildiv"
  | .mod => "mod"

/-- Text in parentheses if the flag is set. -/
def parenthesized (flag : Bool) (text : String) : String :=
  if flag then "(" ++ text ++ ")" else text

namespace Expr

/-- A product by minus one, which is written as a negation. -/
def isNegation : Expr → Bool
  | .bin .mul _ (.const c) => c == -1
  | _ => false

/-- Expressions that need parentheses on the left of a product-like operator. -/
def isLooseLeft : Expr → Bool
  | .bin .add _ _ => true
  | e => e.isNegation

/-- The text of an expression. -/
def render : Expr → String
  | .dim d => "d" ++ toString d
  | .symbol s => "s" ++ toString s
  | .const c => decimal c
  | .bin .add l r =>
    l.render ++
      match r with
      | .const c =>
        if c < 0 then " - " ++ decimalMagnitude c else " + " ++ decimal c
      | .bin .mul a (.const c) =>
        if c = -1 then " - " ++ parenthesized a.isCompound a.render
        else if c < 0 then
          " - " ++ parenthesized a.isCompound a.render ++ " * " ++ decimalMagnitude c
        else " + " ++ parenthesized a.isLooseLeft a.render ++ " * " ++ decimal c
      | other => " + " ++ other.render
  | .bin .mul l (.const c) =>
    if c = -1 then "-" ++ parenthesized l.isCompound l.render
    else parenthesized l.isLooseLeft l.render ++ " * " ++ decimal c
  | .bin op l r =>
    parenthesized l.isLooseLeft l.render ++ " " ++ op.sign ++ " " ++
      parenthesized r.isCompound r.render

end Expr

/-- Items separated by a comma and a blank. -/
def commaSeparated (items : List String) : String :=
  String.intercalate ", " items

/-- The binding list `(d0, …)[s0, …]`; the brackets are left out when there is no symbol. -/
def renderBindings (numDims numSymbols : Nat) : String :=
  "(" ++ commaSeparated ((List.range numDims).map fun d => "d" ++ toString d) ++ ")" ++
    if numSymbols = 0 then ""
    else "[" ++ commaSeparated ((List.range numSymbols).map fun s => "s" ++ toString s) ++ "]"

end AffineRaising.Affine
