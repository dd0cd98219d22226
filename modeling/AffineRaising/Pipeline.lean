/-
# AffineRaising.Pipeline — from text to text.

A source text holds one operation, which must be a module.  `printSource` writes it back in the
printer's layout; `legalizeSource` raises it first, and on request checks it before and after.
-/
import AffineRaising.Analysis.Validity
import AffineRaising.IR.Print
import AffineRaising.IR.Resolve
import AffineRaising.Raise.Legalize

namespace AffineRaising

open AffineRaising.IR AffineRaising.Ops AffineRaising.Analysis AffineRaising.Raise

/-- When a module is checked. -/
inductive Stage where
  | input
  | output
deriving DecidableEq, Repr

/-- The name of a stage. -/
def Stage.name : Stage → String
  | .input => "input"
  | .output => "output"

/-- Why a source text has no answer. -/
inductive PipelineError where
  | unread (error : ReadError)
  | notAModule (error : ViewError)
  | invalid (stage : Stage) (report : Report)

/-- The wording of an error. -/
def PipelineError.message : PipelineError → String
  | .unread e => e.message
  | .notAModule e => "top-level operation is not a module: " ++ e.message
  | .invalid stage report => stage.name ++ ": " ++ report.render

/-- A computation on a store that may end in an error. -/
abbrev Pipeline := ExceptT PipelineError Edit

/-- Reads a module into the store. -/
def readModule (source : String) : Pipeline OpRef := do
  match ← ExceptT.lift (readOp source) with
  | .error e => throw (.unread e)
  | .ok op =>
    match ← ExceptT.lift (query (viewAs · op moduleName)) with
    | .error e => throw (.notAModule e)
    | .ok _ => return op

/-- Checks a module. -/
def verify (stage : Stage) (root : OpRef) : Pipeline Unit := do
  let report ← ExceptT.lift (query (check · root))
  if !report.isClean then throw (.invalid stage report)

/-- Prints a module. -/
def printModule (root : OpRef) : Pipeline String :=
  ExceptT.lift (query (·.print root))

/-- What to do with a source text. -/
structure LegalizeOptions where
  config : Config := {}
  /-- Whether the module is checked before and after. -/
  verify : Bool := false

/-- The text of the raised module, and what raising did. -/
structure LegalizeOutput where
  text : String
  outcome : Outcome

/-- Runs a pipeline on an empty store. -/
def Pipeline.start {α : Type} (p : Pipeline α) : Except Fault (Except PipelineError α) := do
  let (result, _) ← p.run.run Store.empty
  return result

/-- Reads a module and prints it. -/
def printSource (source : String) : Except Fault (Except PipelineError String) :=
  Pipeline.start do
    let root ← readModule source
    printModule root

/-- Reads a module, raises it and prints it. -/
def legalizeSource (options : LegalizeOptions) (source : String) :
    Except Fault (Except PipelineError LegalizeOutput) :=
  Pipeline.start do
    let root ← readModule source
    if options.verify then verify .input root
    let outcome ← ExceptT.lift (legalize options.config root)
    if options.verify then verify .output root
    return ⟨← printModule root, outcome⟩

end AffineRaising
