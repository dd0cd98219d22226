/-
# AffineRaising.Ops.Control — loops, conditionals, functions and modules.

An affine loop keeps the operands of its lower bound, those of its upper bound and its initial
values in one list; the maps of the bounds say where it is cut.  The first argument of its body is
the induction variable.
-/
import AffineRaising.IR.Edit

namespace AffineRaising.Ops

open AffineRaising.IR AffineRaising.Affine

/-! ## Names -/

/-- Affine loop. -/
def forName : OpName := ⟨"affine", "for"⟩

/-- Parallel affine loop nest. -/
def parallelName : OpName := ⟨"affine", "parallel"⟩

/-- Affine conditional. -/
def affineIfName : OpName := ⟨"affine", "if"⟩

/-- Terminator of affine regions. -/
def affineYieldName : OpName := ⟨"affine", "yield"⟩

/-- Structured conditional. -/
def scfIfName : OpName := ⟨"scf", "if"⟩

/-- Terminator of structured regions. -/
def scfYieldName : OpName := ⟨"scf", "yield"⟩

/-- Module. -/
def moduleName : OpName := ⟨"core", "module"⟩

/-- Function. -/
def funcName : OpName := ⟨"func", "func"⟩

/-- Return from a function. -/
def returnName : OpName := ⟨"func", "return"⟩

/-- Call of a function. -/
def callName : OpName := ⟨"func", "call"⟩

/-! ## Loops -/

/-- The two bounds of a loop. -/
inductive BoundSide where
  | lower
  | upper
deriving DecidableEq, Repr

/-- The attribute that holds the map of a bound. -/
def BoundSide.key : BoundSide → String
  | .lower => "lower_bound"
  | .upper => "upper_bound"

/-- The map of a bound. -/
def boundMap? (s : Store) (o : OpRef) (side : BoundSide) : Except Fault (Option Map) := do
  return (← s.attr? o side.key).bind Attr.map?

/-- The step of a loop. -/
def loopStep? (s : Store) (o : OpRef) : Except Fault (Option Int64) := do
  return (← s.attr? o "step").bind Attr.int?

/-- Numbers of operands of the lower bound and of both bounds; zero if a bound has no map. -/
def boundCuts (s : Store) (o : OpRef) : Except Fault (Nat × Nat) := do
  match ← boundMap? s o .lower, ← boundMap? s o .upper with
  | some lower, some upper => return (lower.numInputs, lower.numInputs + upper.numInputs)
  | _, _ => return (0, 0)

/-- The operands of a loop between two positions. -/
def operandSlice (s : Store) (o : OpRef) (start stop : Nat) : Except Fault (List ValueRef) := do
  let operands ← s.operandsOf o
  if stop ≤ operands.length then return (operands.take stop).drop start
  else throw (.missingOperand o operands.length)

/-- The operands of a bound. -/
def boundOperands (s : Store) (o : OpRef) (side : BoundSide) : Except Fault (List ValueRef) := do
  let (lower, both) ← boundCuts s o
  match side with
  | .lower => operandSlice s o 0 lower
  | .upper => operandSlice s o lower both

/-- The initial values of a loop. -/
def loopInits (s : Store) (o : OpRef) : Except Fault (List ValueRef) := do
  let (_, both) ← boundCuts s o
  let operands ← s.operandsOf o
  operandSlice s o both (max both operands.length)

/-- Replaces the map and the operands of a bound and keeps the rest. -/
def setBound (o : OpRef) (side : BoundSide) (m : Map) (operands : List ValueRef) : Edit Unit := do
  let inits ← query (loopInits · o)
  let all ←
    match side with
    | .lower => do
      let upper ← query (boundOperands · o .upper)
      pure (operands ++ upper ++ inits)
    | .upper => do
      let lower ← query (boundOperands · o .lower)
      pure (lower ++ operands ++ inits)
  setAttr o side.key (.map m)
  setOperands o all

/-- The first block of the first region of an operation. -/
def entryBlock? (s : Store) (o : OpRef) : Except Fault (Option BlockRef) := do
  match (← s.op o).regions with
  | [] => return none
  | r :: _ => return (← s.region r).blocks.head?

/-- The induction variable of a loop. -/
def inductionVar? (s : Store) (o : OpRef) : Except Fault (Option ValueRef) := do
  match ← entryBlock? s o with
  | none => return none
  | some b => return (s.argsOf b).head?

/-- A bound of a loop: a map and its operands. -/
structure Bound where
  map : Map
  operands : List ValueRef
deriving DecidableEq, Repr

/-- A loop.  Its results have the types of its initial values. -/
def forSpec (s : Store) (lower upper : Bound) (step : Int64) (inits : List ValueRef)
    (body : RegionRef) : Except Fault OpSpec := do
  let types ← inits.mapM s.typeOf
  return { name := forName, operands := lower.operands ++ upper.operands ++ inits,
           resultTypes := types,
           attrs := Dict.ofEntries [("lower_bound", .map lower.map),
             ("upper_bound", .map upper.map), ("step", .int step)],
           regions := [body] }

/-! ## Conditionals -/

/-- The constraints of an affine conditional. -/
def conditionSet? (s : Store) (o : OpRef) : Except Fault (Option ConstraintSet) := do
  return (← s.attr? o "condition").bind Attr.constraints?

/-- Replaces the constraints of an affine conditional and their operands. -/
def setCondition (o : OpRef) (set : ConstraintSet) (operands : List ValueRef) : Edit Unit := do
  setAttr o "condition" (.constraints set)
  setOperands o operands

/-- An affine conditional. -/
def affineIfSpec (set : ConstraintSet) (operands : List ValueRef) (types : List Ty)
    (regions : List RegionRef) : OpSpec :=
  { name := affineIfName, operands := operands, resultTypes := types,
    attrs := [("condition", .constraints set)], regions := regions }

/-- A structured conditional. -/
def scfIfSpec (condition : ValueRef) (types : List Ty) (regions : List RegionRef) : OpSpec :=
  { name := scfIfName, operands := [condition], resultTypes := types, regions := regions }

/-- A terminator that hands values on. -/
def yieldSpec (name : OpName) (values : List ValueRef) : OpSpec :=
  { name := name, operands := values }

/-! ## Functions and modules -/

/-- The symbol of a function or module. -/
def symbolOf? (s : Store) (o : OpRef) : Except Fault (Option String) := do
  return (← s.attr? o "sym_name").bind Attr.symbol?

/-- The type of a function. -/
def functionType? (s : Store) (o : OpRef) : Except Fault (Option Ty) := do
  return (← s.attr? o "type").bind Attr.type?

/-- The operations of the first block of a module. -/
def moduleOps (s : Store) (o : OpRef) : Except Fault (List OpRef) := do
  match ← entryBlock? s o with
  | none => return []
  | some b => return (← s.block b).ops

/-- A function. -/
def funcSpec (symbol : String) (ty : Ty) (body : RegionRef) : OpSpec :=
  { name := funcName, attrs := Dict.ofEntries [("sym_name", .symbol symbol), ("type", .type ty)],
    regions := [body] }

/-- A call. -/
def callSpec (callee : String) (args : List ValueRef) (types : List Ty) : OpSpec :=
  { name := callName, operands := args, resultTypes := types,
    attrs := [("callee", .symbol callee)] }

/-- A module. -/
def moduleSpec (symbol : String) (body : RegionRef) : OpSpec :=
  { name := moduleName, attrs := [("sym_name", .symbol symbol)], regions := [body] }

/-! ## Views -/

/-- Why an operation is not what it was taken for. -/
inductive ViewError where
  | otherName (expected found : OpName)
  | missingAttribute (key : String)
deriving DecidableEq, Repr

/-- The wording of a view error. -/
def ViewError.message : ViewError → String
  | .otherName expected found =>
    "expected `" ++ expected.render ++ "`, found `" ++ found.render ++ "`"
  | .missingAttribute key => "missing attribute `" ++ key ++ "`"

/-- Checks the name of an operation. -/
def viewAs (s : Store) (o : OpRef) (expected : OpName) : Except Fault (Except ViewError Unit) := do
  let found ← s.nameOf o
  if found = expected then return .ok () else return .error (.otherName expected found)

/-- Checks that an operation has an attribute. -/
def requireAttr (s : Store) (o : OpRef) (key : String) : Except Fault (Except ViewError Attr) := do
  match ← s.attr? o key with
  | some a => return .ok a
  | none => return .error (.missingAttribute key)

end AffineRaising.Ops
