/-
# AffineRaising.Surface.Grammar — reading types, attributes and operations.

    results = dialect.name @symbol (%arg: type, …) | operands
      [successors] -> type {attrs} : types {regions}

Everything but the qualified name is optional, so a part that cannot be read is left for the next
one to try: the brace of a faulty dictionary is read again as that of a region.
-/
import AffineRaising.Surface.AffineGrammar
import AffineRaising.Surface.Tree

namespace AffineRaising.Surface

open AffineRaising.IR AffineRaising.Text AffineRaising.Text.Reader

/-! ## Types and attributes -/

/-- A dictionary of attributes in braces. -/
def dictOf (attr : Reader Attr) : Reader (List (String × Attr)) :=
  bracketed '{' '}' <| commaList do
    let key ← identifier
    blanks
    char '='
    blanks
    let value ← attr
    return (key, value)

/-- A type.  Attributes are read only after parentheses, so the brace of a region is never taken
for theirs. -/
def typeOf (param : Reader Ty) (attr : Reader Attr) : Reader Ty := do
  let (dialect, name) ← qualifiedName
  match ← optional (bracketed '(' ')' (commaList param)) with
  | none => return .mk dialect name [] []
  | some params =>
    let attrs ← optional (do blanks; dictOf attr)
    return .mk dialect name params (Dict.ofEntries (attrs.getD []))

mutual

/-- A type, nested no deeper than a bound. -/
def typeWithin : Nat → Reader Ty
  | 0 => fail
  | depth + 1 => typeOf (typeWithin depth) (attrWithin depth)

/-- An attribute, nested no deeper than a bound.  The alternatives are tried in order, and words
such as `true` win over types that start with them. -/
def attrWithin : Nat → Reader Attr
  | 0 => fail
  | depth + 1 =>
    orElse (do literal "true"; return .bool true) <|
    orElse (do literal "false"; return .bool false) <|
    orElse (do literal "unit"; return .unit) <|
    orElse (do return .map (← affineMap)) <|
    orElse (do return .constraints (← affineSet)) <|
    orElse (do return .string (← readQuoted)) <|
    orElse (do return .symbol (← symbolName)) <|
    orElse (do return .list (← bracketed '[' ']' (commaList (attrWithin depth)))) <|
    orElse (do return .float (← floatLiteral)) <|
    orElse (do return .int (← signedWord))
      (do return .type (← typeWithin depth))

end

/-- Two levels of nesting for every character that is left are enough for any text. -/
def nestingBound (s : List Char) : Nat := 2 * s.length + 2

/-- A type. -/
def typeText : Reader Ty := fun s => typeWithin (nestingBound s) s

/-- An attribute. -/
def attrText : Reader Attr := fun s => attrWithin (nestingBound s) s

/-- A dictionary of attributes. -/
def dictText : Reader (List (String × Attr)) := dictOf attrText

/-! ## Parts of operations -/

/-- A part that may be missing. -/
def orNothing {α : Type} (p : Reader (List α)) : Reader (List α) := do
  let found ← optional p
  return found.getD []

/-- Result names up to the equals sign. -/
def resultNames : Reader (List String) := do
  let names ← commaList1 valueName
  blanks
  char '='
  return names

/-- Names with types, in parentheses. -/
def typedNames : Reader (List TypedName) :=
  bracketed '(' ')' <| commaList do
    let name ← valueName
    blanks
    char ':'
    blanks
    let ty ← typeText
    return ⟨name, ty⟩

/-- Successor labels in brackets. -/
def successorLabels : Reader (List String) :=
  bracketed '[' ']' (commaList1 blockLabel)

/-- A return type after an arrow. -/
def returnType : Reader Ty := do
  blanks
  char '-'
  char '>'
  blanks
  typeText

/-- Result types after a colon. -/
def resultTypes : Reader (List Ty) := do
  blanks
  char ':'
  blanks
  commaList1 typeText

/-- The signature or the operands of an operation. -/
def paramsOrOperands : Reader (List TypedName × List String) := do
  if ← nextIs (· == '(') then
    return (← typedNames, [])
  else if ← nextIs (· == '%') then
    return ([], ← orNothing (commaList1 valueName))
  else return ([], [])

/-- An operation up to its regions. -/
def opHead : Reader OpHead := do
  blanks
  let results ← orNothing resultNames
  blanks
  let (dialect, name) ← qualifiedName
  let symbol ← optional (do blanks; symbolName)
  blanks
  let (params, operands) ← paramsOrOperands
  let successors ← orNothing (do blanks; successorLabels)
  let returnType ← optional returnType
  let attrs ← orNothing (do blanks; dictText)
  let resultTypes ← orNothing resultTypes
  return { results, dialect, name, symbol, params, operands, successors, returnType, attrs,
           resultTypes }

/-! ## Blocks, regions and operations -/

/-- After blanks, whether the next character exists and is none of the given ones. -/
def beforeNone (stops : List Char) : Reader Bool := do
  blanks
  nextIs fun c => !stops.contains c

/-- A labelled block: its header, then operations up to the next label or the closing brace. -/
def blockOf (op : Reader Op) : Reader Block := do
  blanks
  let label ← blockLabel
  let args ← orNothing typedNames
  blanks
  char ':'
  let ops ← repeatWhile (beforeNone ['^', '}']) op
  return .mk label args ops

/-- After blanks, whether the closing brace is not next. -/
def beforeBrace : Reader Bool := do
  blanks
  let closing ← nextIs (· == '}')
  return !closing

/-- A region: labelled blocks, or operations that form one unlabelled block. -/
def regionOf (op : Reader Op) : Reader Region := do
  char '{'
  blanks
  let blocks ←
    if ← nextIs (· == '^') then repeatWhile beforeBrace (blockOf op)
    else if ← nextIs (· == '}') then pure []
    else do
      let ops ← repeatWhile (beforeNone ['}']) op
      pure [Block.mk "bb0" [] ops]
  blanks
  char '}'
  return .mk blocks

/-- After blanks, whether a region starts. -/
def beforeRegion : Reader Bool := do
  blanks
  nextIs (· == '{')

/-- An operation, nested no deeper than a bound. -/
def opWithin : Nat → Reader Op
  | 0 => fail
  | depth + 1 => do
    let head ← opHead
    let regions ← repeatWhile beforeRegion (regionOf (opWithin depth))
    return .mk head regions

/-- An operation.  Each level of nesting reads a character. -/
def operation : Reader Op := fun s => opWithin (s.length + 1) s

/-! ## Whole texts -/

/-- Why a text is not an operation, with the byte at which reading stopped. -/
inductive SyntaxError where
  | malformed (offset : Nat)
  | trailingInput (offset : Nat)
deriving DecidableEq, Repr

/-- Reads a text that holds one operation and nothing else. -/
def Op.ofText (text : String) : Except SyntaxError Op :=
  let source := text.toList
  let offset (rest : List Char) : Nat := byteLength source - byteLength rest
  match (do let op ← operation; blanks; return op : Reader Op) source with
  | .fail rest => .error (.malformed (offset rest))
  | .ok op rest => if rest.isEmpty then .ok op else .error (.trailingInput (offset rest))

end AffineRaising.Surface
