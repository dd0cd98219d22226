/-
# AffineRaising.IR.Resolve — from written operations to a store.

Names are resolved while the program is built.  A region sees the names of the operation around it,
and what it defines stays inside.  Of a region, all blocks are created before any operation, so that
successors can refer forward; an operation is created after everything nested in it.
-/
import AffineRaising.IR.Edit
import AffineRaising.Surface.Grammar

namespace AffineRaising.IR

open AffineRaising.Surface (TypedName OpHead SyntaxError)

/-- The names that can be referred to; the latest entry of a name counts. -/
structure Scope where
  values : List (String × ValueRef)
  blocks : List (String × BlockRef)

namespace Scope

/-- No names. -/
def empty : Scope := ⟨[], []⟩

/-- The value of a name. -/
def value? (scope : Scope) (name : String) : Option ValueRef :=
  scope.values.lookup name

/-- The block of a label. -/
def block? (scope : Scope) (label : String) : Option BlockRef :=
  scope.blocks.lookup label

/-- Gives a name to a value. -/
def bindValue (scope : Scope) (name : String) (v : ValueRef) : Scope :=
  { scope with values := (name, v) :: scope.values }

/-- Gives a label to a block. -/
def bindBlock (scope : Scope) (label : String) (b : BlockRef) : Scope :=
  { scope with blocks := (label, b) :: scope.blocks }

end Scope

/-- Why names cannot be resolved. -/
inductive ScopeError where
  | duplicateLabel (label : String)
  | entryArity (args params : Nat)
  | duplicateArgument (name : String) (index : Nat)
  | undefinedValue (name : String) (op : OpName)
  | resultCount (op : OpName) (names types : Nat)
  | undefinedBlock (label : String) (op : OpName)
  | duplicateValue (name : String) (op : OpName) (index : Nat)
deriving DecidableEq, Repr

/-- The wording of a scope error. -/
def ScopeError.message : ScopeError → String
  | .duplicateLabel label => "duplicate block label '^" ++ label ++ "'"
  | .entryArity args params =>
    "entry block has " ++ toString args ++ " args but function signature has " ++
      toString params ++ " params"
  | .duplicateArgument name index =>
    "duplicate block argument name '%" ++ name ++ "' at index " ++ toString index
  | .undefinedValue name op =>
    "undefined value '%" ++ name ++ "' in operation '" ++ op.render ++ "'"
  | .resultCount op names types =>
    "operation '" ++ op.render ++ "' declares " ++ toString names ++ " result names but " ++
      toString types ++ " result types"
  | .undefinedBlock label op =>
    "undefined block '^" ++ label ++ "' in successor list of '" ++ op.render ++ "'"
  | .duplicateValue name op index =>
    "duplicate SSA name '%" ++ name ++ "' in operation '" ++ op.render ++ "' result index " ++
      toString index

/-- A computation that builds a store and may find that names do not resolve. -/
abbrev Build := ExceptT ScopeError Edit

/-- Runs an edit while building. -/
def edit {α : Type} (e : Edit α) : Build α := ExceptT.lift e

/-- Looks names up in order, with an error for the first one that is missing. -/
def lookUpAll {α : Type} (lookup : String → Option α) (missing : String → ScopeError) :
    List String → Build (List α)
  | [] => return []
  | name :: rest => do
    match lookup name with
    | none => throw (missing name)
    | some a =>
      let as ← lookUpAll lookup missing rest
      return a :: as

/-- The first name that repeats an earlier one, with its place. -/
def firstRepeated : List String → Nat → List String → Option (String × Nat)
  | _, _, [] => none
  | seen, i, name :: rest =>
    if seen.contains name then some (name, i) else firstRepeated (name :: seen) (i + 1) rest

/-- Creates a block and binds its label and arguments. -/
def buildHeader (scope : Scope) (label : String) (args : List TypedName) :
    Build (BlockRef × Scope) := do
  match firstRepeated [] 0 (args.map (·.name)) with
  | some (name, i) => throw (.duplicateArgument name i)
  | none =>
    let block ← edit (createBlock (args.map (·.ty)))
    let values := (← get).argsOf block
    let scope := (args.zip values).foldl (fun sc p => sc.bindValue p.1.name p.2)
      (scope.bindBlock label block)
    return (block, scope)

/-- Creates the blocks of a region.  The first block takes the arguments of the signature if it
declares none of its own. -/
def buildHeaders (entry : List TypedName) (seen : List String) (scope : Scope) :
    List Surface.Block → Build (List BlockRef × Scope)
  | [] => return ([], scope)
  | .mk label args _ :: rest => do
    if seen.contains label then throw (.duplicateLabel label)
    if !args.isEmpty && !entry.isEmpty && args.length != entry.length then
      throw (.entryArity args.length entry.length)
    let (block, scope) ← buildHeader scope label (if args.isEmpty then entry else args)
    let (blocks, scope) ← buildHeaders [] (label :: seen) scope rest
    return (block :: blocks, scope)

/-- The attributes of a written operation: its dictionary, its symbol, and the function type of its
signature. -/
def headAttrs (head : OpHead) : Dict :=
  let dict := Dict.ofEntries head.attrs
  let dict :=
    match head.symbol with
    | some name => dict.insert "sym_name" (.symbol name)
    | none => dict
  if head.returnType.isSome || !head.params.isEmpty then
    dict.insert "type"
      (.type (.function (head.returnType.getD .nil) (head.params.map (·.ty))))
  else dict

/-- Binds the results of an operation, whose names must be new. -/
def bindResults (op : OpName) : Scope → Nat → List (String × ValueRef) → Build Scope
  | scope, _, [] => return scope
  | scope, i, (name, v) :: rest => do
    if (scope.value? name).isSome then throw (.duplicateValue name op i)
    bindResults op (scope.bindValue name v) (i + 1) rest

mutual

/-- Builds an operation and binds its results. -/
def buildOp (scope : Scope) : Surface.Op → Build (OpRef × Scope)
  | .mk head regions => do
    let name : OpName := ⟨head.dialect, head.name⟩
    let operands ← lookUpAll scope.value? (.undefinedValue · name) head.operands
    if !head.results.isEmpty && head.results.length != head.resultTypes.length then
      throw (.resultCount name head.results.length head.resultTypes.length)
    let successors ← lookUpAll scope.block? (.undefinedBlock · name) head.successors
    let regionRefs ← buildRegions scope head.params regions
    let op ← edit (createOp
      { name := name, operands := operands, resultTypes := head.resultTypes,
        attrs := headAttrs head, regions := regionRefs, successors := successors })
    let results := (← get).resultsOf op
    let scope ← bindResults name scope 0 (head.results.zip results)
    return (op, scope)
termination_by structural op => op

/-- Builds regions in order; the signature belongs to the first. -/
def buildRegions (scope : Scope) (entry : List TypedName) :
    List Surface.Region → Build (List RegionRef)
  | [] => return []
  | r :: rest => do
    let region ← buildRegion scope entry r
    let regions ← buildRegions scope [] rest
    return region :: regions
termination_by structural rs => rs

/-- Builds a region. -/
def buildRegion (scope : Scope) (entry : List TypedName) : Surface.Region → Build RegionRef
  | .mk blocks => do
    let (refs, scope) ← buildHeaders entry [] scope blocks
    buildBodies scope refs blocks
    edit (createRegion refs)
termination_by structural r => r

/-- Builds the operations of blocks. -/
def buildBodies (scope : Scope) (refs : List BlockRef) : List Surface.Block → Build Unit
  | [] => return
  | b :: rest => do
    match refs with
    | [] => return
    | ref :: refs =>
      let scope ← buildBody scope ref b
      buildBodies scope refs rest
termination_by structural bs => bs

/-- Builds the operations of a block. -/
def buildBody (scope : Scope) (block : BlockRef) : Surface.Block → Build Scope
  | .mk _ _ ops => buildOps scope block ops
termination_by structural b => b

/-- Builds operations and puts them at the end of a block. -/
def buildOps (scope : Scope) (block : BlockRef) : List Surface.Op → Build Scope
  | [] => return scope
  | o :: rest => do
    let (op, scope) ← buildOp scope o
    edit (pushOp block op)
    buildOps scope block rest
termination_by structural ops => ops

end

/-- Why a text does not become a program. -/
inductive ReadError where
  | unreadable (error : SyntaxError)
  | unresolved (error : ScopeError)
deriving DecidableEq, Repr

/-- The wording of a read error.  Names that do not resolve are reported without a position. -/
def ReadError.message : ReadError → String
  | .unreadable (.malformed offset) =>
    "parse error at offset " ++ toString offset ++
      ": parse error: Parsing Error: ContextError \x7b context: [], cause: None \x7d"
  | .unreadable (.trailingInput offset) =>
    "parse error at offset " ++ toString offset ++ ": trailing input after top-level operation"
  | .unresolved e => "parse error at offset 0: " ++ e.message

/-- Reads one operation into the store. -/
def readOp (text : String) : Edit (Except ReadError OpRef) := do
  match Surface.Op.ofText text with
  | .error e => return .error (.unreadable e)
  | .ok tree =>
    match ← (buildOp Scope.empty tree).run with
    | .error e => return .error (.unresolved e)
    | .ok (op, _) => return .ok op

end AffineRaising.IR
