/-
# AffineRaising.IR.Print — the text of operations.

Values and labels are numbered in the order in which they are printed.  Functions and the operations
of a module start over; a value or block that has no number yet prints as `%?` or `^bb?`.
-/
import AffineRaising.IR.Store

namespace AffineRaising.IR

open AffineRaising.Affine (commaSeparated)

/-- The numbers given out so far. -/
structure Numbering where
  values : List (ValueRef × Nat)
  blocks : List (BlockRef × Nat)
  nextValue : Nat
  nextBlock : Nat

/-- No numbers given out. -/
def Numbering.fresh : Numbering := ⟨[], [], 0, 0⟩

/-- A computation that numbers values and blocks. -/
abbrev Printer := StateT Numbering (Except Fault)

/-- Runs a query while printing. -/
def Printer.ask {α : Type} (q : Except Fault α) : Printer α := liftM q

/-- Gives a value the next number, and yields its name. -/
def numberValue (v : ValueRef) : Printer String := do
  let n ← get
  set { n with values := (v, n.nextValue) :: n.values, nextValue := n.nextValue + 1 }
  return "%" ++ toString n.nextValue

/-- The name of a value. -/
def valueName (v : ValueRef) : Printer String := do
  let n ← get
  match n.values.lookup v with
  | some i => return "%" ++ toString i
  | none => return "%?"

/-- Gives a block the next number. -/
def numberBlock (b : BlockRef) : Printer Unit := do
  let n ← get
  set { n with blocks := (b, n.nextBlock) :: n.blocks, nextBlock := n.nextBlock + 1 }

/-- The label of a block. -/
def blockLabel (b : BlockRef) : Printer String := do
  let n ← get
  match n.blocks.lookup b with
  | some i => return "^bb" ++ toString i
  | none => return "^bb?"

/-- Forgets all numbers. -/
def restartNumbering : Printer Unit := set Numbering.fresh

/-- A number of blanks. -/
def blankRun (n : Nat) : String := String.ofList (List.replicate n ' ')

/-- Numbers an argument, and prints it with its type. -/
def printArg (s : Store) (v : ValueRef) : Printer String := do
  let name ← numberValue v
  let ty ← Printer.ask (s.typeOf v)
  return name ++ ": " ++ ty.render

/-- Numbers and prints arguments in parentheses. -/
def printArgs (s : Store) (args : List ValueRef) : Printer String := do
  let texts ← args.mapM (printArg s)
  return "(" ++ commaSeparated texts ++ ")"

/-- The arguments of a block header; nothing if there is none. -/
def printBlockArgs (s : Store) (b : BlockRef) : Printer String :=
  match s.argsOf b with
  | [] => return ""
  | args => printArgs s args

/-- Text after a blank, unless there is no text to write. -/
def afterBlank (texts : List String) (opening closing : String) : String :=
  if texts.isEmpty then "" else " " ++ opening ++ commaSeparated texts ++ closing

/-- An operation up to its regions. -/
def printHead (s : Store) (op : OpRef) (d : OpData) : Printer String := do
  let results ← (s.resultsOf op).mapM numberValue
  let operands ← d.operands.mapM valueName
  let successors ← d.successors.mapM blockLabel
  return (if results.isEmpty then "" else commaSeparated results ++ " = ") ++ d.name.render ++
    afterBlank operands "" "" ++ afterBlank successors "[" "]" ++ d.attrs.render ++
    afterBlank (d.resultTypes.map Ty.render) ": " ""

/-- Prints the operations of a block, each at an indentation. -/
def printOpsWith (print : Nat → OpRef → Printer String) (indent : Nat) (ops : List OpRef) :
    Printer String := do
  return String.join (← ops.mapM (print indent))

/-- Prints the blocks of a region; `labelled` says whether they have headers.  A blank line stands
between blocks. -/
def printBlocksWith (print : Nat → OpRef → Printer String) (s : Store) (indent : Nat)
    (labelled : Bool) : List BlockRef → Printer String
  | [] => return ""
  | b :: rest => do
    let header ←
      if labelled then do
        let label ← blockLabel b
        let args ← printBlockArgs s b
        pure (blankRun indent ++ label ++ args ++ ":\n")
      else pure ""
    let ops ← Printer.ask (s.block b)
    let body ← printOpsWith print (indent + 2) ops.ops
    let more ← printBlocksWith print s indent labelled rest
    return header ++ body ++ (if rest.isEmpty then "" else "\n") ++ more

/-- Prints a region.  The header of an only block without arguments is left out. -/
def printRegionWith (print : Nat → OpRef → Printer String) (s : Store) (indent : Nat)
    (r : RegionRef) : Printer String := do
  let d ← Printer.ask (s.region r)
  let labelled :=
    match d.blocks with
    | [b] => !(s.argsOf b).isEmpty
    | _ => true
  if labelled then d.blocks.forM numberBlock
  printBlocksWith print s indent labelled d.blocks

/-- Prints regions in braces, one after the other. -/
def printRegionsWith (print : Nat → OpRef → Printer String) (s : Store) (indent : Nat) :
    List RegionRef → Printer String
  | [] => return ""
  | r :: rest => do
    let body ← printRegionWith print s (indent + 2) r
    let more ← printRegionsWith print s indent rest
    return " \x7b\n" ++ body ++ blankRun indent ++ "\x7d" ++ more

/-- The symbol of a module or function after a blank; nothing if it has none. -/
def printSymbol (d : OpData) : String :=
  match d.attrs.get? "sym_name" with
  | some (.symbol name) => " " ++ renderSymbol name
  | _ => ""

/-- Prints the operations of a module's blocks, each with numbers of its own. -/
def printModuleBody (print : Nat → OpRef → Printer String) (s : Store) (indent : Nat) :
    List BlockRef → Printer String
  | [] => return ""
  | b :: rest => do
    let d ← Printer.ask (s.block b)
    let texts ← d.ops.mapM fun op => do
      restartNumbering
      print indent op
    let more ← printModuleBody print s indent rest
    return String.join texts ++ more

/-- Prints a module: its symbol and its first region. -/
def printModuleWith (print : Nat → OpRef → Printer String) (s : Store) (indent : Nat)
    (d : OpData) : Printer String := do
  let head := blankRun indent ++ "core.module" ++ printSymbol d
  match d.regions with
  | [] => return head ++ "\n"
  | r :: _ =>
    let rd ← Printer.ask (s.region r)
    let body ← printModuleBody print s (indent + 2) rd.blocks
    return head ++ " \x7b\n" ++ body ++ blankRun indent ++ "\x7d\n"

/-- Prints the blocks of a function.  The arguments of the first are in the signature. -/
def printFunctionBlocks (print : Nat → OpRef → Printer String) (s : Store) (indent : Nat)
    (labelled entry : Bool) : List BlockRef → Printer String
  | [] => return ""
  | b :: rest => do
    let header ←
      if labelled then do
        let label ← blockLabel b
        let args ← if entry then pure "" else printBlockArgs s b
        pure (blankRun (indent + 2) ++ label ++ args ++ ":\n")
      else pure ""
    let d ← Printer.ask (s.block b)
    let body ← printOpsWith print (indent + if labelled then 4 else 2) d.ops
    let more ← printFunctionBlocks print s indent labelled false rest
    return header ++ body ++ more

/-- The return type of a function after an arrow; nothing if its type has none. -/
def printReturnType (d : OpData) : String :=
  match d.attrs.get? "type" with
  | some (.type ty) =>
    match ty.params with
    | result :: _ => " -> " ++ result.render
    | [] => ""
  | _ => ""

/-- Prints a function: its symbol, the arguments of its first block, and its first region. -/
def printFunctionWith (print : Nat → OpRef → Printer String) (s : Store) (indent : Nat)
    (d : OpData) : Printer String := do
  restartNumbering
  let blocks ←
    match d.regions with
    | [] => pure []
    | r :: _ => do pure (← Printer.ask (s.region r)).blocks
  let args ←
    match blocks with
    | [] => pure "()"
    | b :: _ => printArgs s (s.argsOf b)
  let head := blankRun indent ++ "func.func" ++ printSymbol d ++ args ++ printReturnType d
  if blocks.isEmpty then return head ++ "\n"
  let labelled := decide (1 < blocks.length)
  if labelled then blocks.forM numberBlock
  let body ← printFunctionBlocks print s indent labelled true blocks
  return head ++ " \x7b\n" ++ body ++ blankRun indent ++ "\x7d\n"

/-- Prints an operation at an indentation, nested no deeper than a bound. -/
def printWithin (s : Store) : Nat → Nat → OpRef → Printer String
  | 0, _, _ => throw .cyclic
  | depth + 1, indent, op => do
    let d ← Printer.ask (s.op op)
    if d.name = ⟨"core", "module"⟩ then printModuleWith (printWithin s depth) s indent d
    else if d.name = ⟨"func", "func"⟩ then printFunctionWith (printWithin s depth) s indent d
    else
      let head ← printHead s op d
      let regions ← printRegionsWith (printWithin s depth) s indent d.regions
      return blankRun indent ++ head ++ regions ++ "\n"

/-- The text of an operation, with numbers from zero. -/
def Store.print (s : Store) (op : OpRef) : Except Fault String := do
  let (text, _) ← (printWithin s s.depthBound 0 op).run Numbering.fresh
  return text

end AffineRaising.IR
