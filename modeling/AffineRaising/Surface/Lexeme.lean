/-
# AffineRaising.Surface.Lexeme — blanks, names and numbers.

The smallest readable parts of the text format.  Blanks are ASCII white space and line comments that
start with two slashes; names are ASCII words.
-/
import AffineRaising.Text.Quoted
import AffineRaising.Affine.Quotient
import AffineRaising.Decimal.Binary64

namespace AffineRaising.Surface

open AffineRaising.Text AffineRaising.Text.Reader

/-- ASCII white space: blank, tabulator, line feed, form feed, carriage return. -/
def isBlank (c : Char) : Bool :=
  c == ' ' || c == '\t' || c == '\n' || c.toNat == 12 || c == '\r'

/-- Characters of words. -/
def isWordChar (c : Char) : Bool :=
  c.isAlphanum || c == '_'

/-- First characters of identifiers. -/
def isIdentStart (c : Char) : Bool :=
  c.isAlpha || c == '_'

/-- Drops blanks and comments; `inComment` says that the text starts inside a comment. -/
def dropBlanks : Bool → List Char → List Char
  | _, [] => []
  | true, c :: rest => dropBlanks (c != '\n') rest
  | false, c :: rest =>
    if isBlank c then dropBlanks false rest
    else if c == '/' && rest.head? == some '/' then dropBlanks true rest
    else c :: rest

/-- Reads blanks and comments. -/
def blanks : Reader Unit := fun s => .ok () (dropBlanks false s)

/-- Reads blanks, a part, and blanks. -/
def padded {α : Type} (p : Reader α) : Reader α := do
  blanks
  let a ← p
  blanks
  return a

/-- Parts separated by commas, with blanks around each. -/
def commaList {α : Type} (p : Reader α) : Reader (List α) :=
  separated (padded p) (char ',')

/-- Parts separated by commas, at least one. -/
def commaList1 {α : Type} (p : Reader α) : Reader (List α) :=
  separated1 (padded p) (char ',')

/-- A part between two brackets. -/
def bracketed {α : Type} (opening closing : Char) (p : Reader α) : Reader α := do
  char opening
  blanks
  let a ← p
  blanks
  char closing
  return a

/-- An identifier: a letter or underscore, then word characters. -/
def identifier : Reader String := do
  let c ← satisfy isIdentStart
  let cs ← takeWhile isWordChar
  return String.ofList (c :: cs)

/-- A word of at least one character. -/
def word : Reader String := do
  let cs ← takeWhile1 isWordChar
  return String.ofList cs

/-- A value name after its percent sign. -/
def valueName : Reader String := do
  char '%'
  word

/-- A block label after its caret. -/
def blockLabel : Reader String := do
  char '^'
  word

/-- A symbol after its at sign, a word or a string literal. -/
def symbolName : Reader String := do
  char '@'
  if ← nextIs (· == '"') then readQuoted else word

/-- Two identifiers joined by a point. -/
def qualifiedName : Reader (String × String) := do
  let dialect ← identifier
  char '.'
  let name ← identifier
  return (dialect, name)

/-- The number that decimal digits write. -/
def numberOfDigits (cs : List Char) : Nat :=
  cs.foldl (fun n c => 10 * n + (c.toNat - '0'.toNat)) 0

/-- A number below `2^64` without leading zeros.  A zero ends the number; too large a number is
left unread. -/
def natural : Reader Nat := fun s =>
  match s with
  | [] => .fail []
  | c :: rest =>
    if c = '0' then .ok 0 rest
    else if c.isDigit then
      let n := numberOfDigits (s.takeWhile Char.isDigit)
      if n < Nat.pow 2 64 then .ok n (s.dropWhile Char.isDigit) else .fail s
    else .fail s

/-- An optional minus sign. -/
def minusSign : Reader Bool := do
  let sign ← optional (char '-')
  return sign.isSome

/-- A signed 64-bit number. -/
def signedWord : Reader Int64 := do
  let negative ← minusSign
  let n ← natural
  ofOption (Affine.wordOf? (if negative then -(n : Int) else n))

/-- The exponent of a float literal. -/
def floatExponent : Reader Int := do
  let _ ← satisfy fun c => c == 'e' || c == 'E'
  let sign ← optional (satisfy fun c => c == '+' || c == '-')
  let digits ← takeWhile1 Char.isDigit
  let n : Int := numberOfDigits digits
  return if sign = some '-' then -n else n

/-- A float literal; its decimal point, between digits, tells it from a number. -/
def floatLiteral : Reader Decimal.Bits := do
  let negative ← minusSign
  let whole ← takeWhile1 Char.isDigit
  char '.'
  let fraction ← takeWhile1 Char.isDigit
  let exponent ← optional floatExponent
  let digits := numberOfDigits (whole ++ fraction)
  return Decimal.bitsOfDecimal negative digits (exponent.getD 0 - (fraction.length : Int))

end AffineRaising.Surface
