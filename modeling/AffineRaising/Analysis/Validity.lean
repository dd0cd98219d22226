/-
# AffineRaising.Analysis.Validity — checking a module.

Three checks, each of which collects all its complaints: recorded uses and operands agree in both
directions; every operand is visible where it is used; every affine operation binds as many operands
as its map or set takes.
-/
import AffineRaising.Analysis.Dominance
import AffineRaising.Analysis.Walk
import AffineRaising.Ops.Access
import AffineRaising.Ops.Control

namespace AffineRaising.Analysis

open AffineRaising.IR AffineRaising.Ops

/-- What is wrong with a module. -/
inductive Flaw where
  /-- An operand without a recorded use. -/
  | missingUse (op : OpRef) (name : OpName) (slot : Nat) (value : ValueRef)
  /-- A recorded use without its operand. -/
  | staleUse (value : ValueRef) (op : OpRef) (slot : Nat)
  /-- An operand that is not visible at its user. -/
  | notVisible (op : OpRef) (name : OpName) (slot : Nat) (value : ValueRef)
  /-- A wrong number of operands for a map or set. -/
  | arity (op : OpRef) (name : OpName) (key : String) (expected actual : Nat)
  /-- A map or set that is not there. -/
  | missingAttr (op : OpRef) (name : OpName) (key : String)
deriving DecidableEq, Repr

/-- The wording of a flaw. -/
def Flaw.message : Flaw → String
  | .missingUse op name slot value =>
    "operand #" ++ toString slot ++ " of " ++ name.render ++ " (" ++ op.render ++ ") uses " ++
      value.render ++ " but no use-chain entry exists"
  | .staleUse value op slot =>
    "use-chain of " ++ value.render ++ " lists operand #" ++ toString slot ++ " of " ++
      op.render ++ ", which does not reference it"
  | .notVisible op name slot value =>
    "operand #" ++ toString slot ++ " of " ++ name.render ++ " (" ++ op.render ++ ") uses " ++
      value.render ++ ", which is not visible there"
  | .arity op name key expected actual =>
    name.render ++ " (" ++ op.render ++ ") binds " ++ toString actual ++ " operand(s) to `" ++
      key ++ "`, which takes " ++ toString expected
  | .missingAttr op name key =>
    name.render ++ " (" ++ op.render ++ ") is missing its `" ++ key ++ "` attribute"

/-! ## Uses -/

/-- Operands of an operation that have no recorded use. -/
def missingUses (s : Store) (o : OpRef) (d : OpData) : List Flaw :=
  d.operands.zipIdx.filterMap fun v =>
    if (s.usesOf v.1).contains ⟨o, v.2⟩ then none else some (.missingUse o d.name v.2 v.1)

/-- Whether a recorded use names an operation of the module whose operand is the value. -/
def pointsBack (s : Store) (ops : List OpRef) (v : ValueRef) (u : Use) : Except Fault Bool := do
  if ops.contains u.user then return (← s.operandsOf u.user)[u.slot]? == some v
  else return false

/-- Recorded uses of a value that name no operand. -/
def staleUses (s : Store) (ops : List OpRef) (v : ValueRef) : Except Fault (List Flaw) := do
  let stale ← (s.usesOf v).filterM fun u => do return !(← pointsBack s ops v u)
  return stale.map fun u => .staleUse v u.user u.slot

/-- The values that an operation mentions: operands, results and arguments of its blocks. -/
def mentionedValues (s : Store) (o : OpRef) : Except Fault (List ValueRef) := do
  return (← s.operandsOf o) ++ s.resultsOf o ++ (← regionArgs s o)

/-- Complaints about uses, first operands without a recorded use, then recorded uses without an
operand. -/
def useFlaws (s : Store) (root : OpRef) : Except Fault (List Flaw) := do
  let ops ← bodyOps s root
  let missing ← ops.eraseDups.mapM fun o => do return missingUses s o (← s.op o)
  let values ← ops.mapM (mentionedValues s)
  let stale ← values.flatten.eraseDups.mapM (staleUses s ops)
  return missing.flatten ++ stale.flatten

/-! ## Visibility -/

/-- Operands of an operation that are not visible there. -/
def hiddenOperands (s : Store) (o : OpRef) : Except Fault (List Flaw) := do
  let d ← s.op o
  let hidden ← d.operands.zipIdx.filterM fun v => do return !(← valueDominates s v.1 o)
  return hidden.map fun v => .notVisible o d.name v.2 v.1

/-- Complaints about visibility. -/
def visibilityFlaws (s : Store) (root : OpRef) : Except Fault (List Flaw) := do
  return (← (← bodyOps s root).mapM (hiddenOperands s)).flatten

/-! ## Arity -/

/-- Compares a number of operands with the one that is expected, if any is. -/
def expectArity (o : OpRef) (name : OpName) (key : String) (expected : Option Nat)
    (actual : Nat) : List Flaw :=
  match expected with
  | none => [.missingAttr o name key]
  | some n => if n = actual then [] else [.arity o name key n actual]

/-- Complaints about the number of operands of an affine loop. -/
def loopArity (s : Store) (o : OpRef) (d : OpData) : Except Fault (List Flaw) := do
  match ← boundMap? s o .lower, ← boundMap? s o .upper with
  | some lower, some upper =>
    let bound := lower.numInputs + upper.numInputs
    let inits := d.operands.length - bound
    return expectArity o d.name "lower_bound" (some (bound + inits)) d.operands.length ++
      expectArity o d.name "iter_args" (some (s.resultsOf o).length) inits
  | lower, upper =>
    return (if lower.isNone then [.missingAttr o d.name "lower_bound"] else []) ++
      if upper.isNone then [.missingAttr o d.name "upper_bound"] else []

/-- Complaints about the number of operands of an affine operation. -/
def affineArity (s : Store) (o : OpRef) : Except Fault (List Flaw) := do
  let d ← s.op o
  if d.name = applyName then
    return expectArity o d.name "map" ((← opMap? s o).map (·.numInputs)) d.operands.length
  match AccessKind.ofName? d.name with
  | some kind =>
    return expectArity o d.name "map" ((← opMap? s o).map (·.numInputs))
      (d.operands.length - kind.mapStart)
  | none =>
    if d.name = forName then loopArity s o d
    else if d.name = affineIfName then
      return expectArity o d.name "condition" ((← conditionSet? s o).map (·.numInputs))
        d.operands.length
    else return []

/-- Complaints about arities. -/
def arityFlaws (s : Store) (root : OpRef) : Except Fault (List Flaw) := do
  return (← (← bodyOps s root).mapM (affineArity s)).flatten

/-! ## Reports -/

/-- The wordings of some flaws, in ascending order. -/
def sortedMessages (flaws : List Flaw) : List String :=
  (flaws.map Flaw.message).mergeSort fun a b => decide (a ≤ b)

/-- What the three checks found. -/
structure Report where
  uses : List Flaw
  visibility : List Flaw
  arity : List Flaw

/-- Runs the three checks. -/
def check (s : Store) (root : OpRef) : Except Fault Report := do
  return ⟨← useFlaws s root, ← visibilityFlaws s root, ← arityFlaws s root⟩

namespace Report

/-- Number of complaints. -/
def count (r : Report) : Nat :=
  r.uses.length + r.visibility.length + r.arity.length

/-- Whether nothing was found. -/
def isClean (r : Report) : Bool := r.count == 0

/-- All wordings; those about uses come first, in ascending order. -/
def messages (r : Report) : List String :=
  sortedMessages r.uses ++ (r.visibility ++ r.arity).map Flaw.message

/-- The first line of a report. -/
def summary (r : Report) : String :=
  if r.isClean then "validation passed"
  else toString r.count ++ " validation error(s) found:"

/-- The whole report. -/
def render (r : Report) : String :=
  if r.isClean then r.summary
  else r.summary ++ "\n" ++ String.join (r.messages.map fun m => "  - " ++ m ++ "\n")

end Report

end AffineRaising.Analysis
