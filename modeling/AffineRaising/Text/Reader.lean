/-
# AffineRaising.Text.Reader — readers over characters that remember where they stopped.

A reader takes the characters that are left and either yields a value with the rest, or fails with
the characters it had not consumed when it failed.  That second rest is what positions in error
messages are computed from, so every combinator below says what it leaves behind on failure: a
sequence leaves what its failing part left, an optional part and each step of a list go back to
where they started.
-/

namespace AffineRaising.Text

/-- Outcome of a reader. -/
inductive Reply (α : Type) where
  | ok (value : α) (rest : List Char)
  | fail (rest : List Char)
deriving DecidableEq, Repr

/-- A reader of `α`. -/
def Reader (α : Type) : Type := List Char → Reply α

namespace Reader

/-- Yields a value without reading. -/
protected def pure {α : Type} (a : α) : Reader α := fun s => .ok a s

/-- Reads one part, then another that may depend on it. -/
protected def bind {α β : Type} (p : Reader α) (f : α → Reader β) : Reader β := fun s =>
  match p s with
  | .ok a rest => f a rest
  | .fail rest => .fail rest

instance : Monad Reader where
  pure := Reader.pure
  bind := Reader.bind

/-- Fails without reading. -/
def fail {α : Type} : Reader α := fun s => .fail s

/-- Yields the value of an option, or fails without reading. -/
def ofOption {α : Type} : Option α → Reader α
  | some a => Reader.pure a
  | none => fail

/-- Whether the next character satisfies a test; false at the end. -/
def nextIs (test : Char → Bool) : Reader Bool := fun s =>
  match s with
  | c :: _ => .ok (test c) s
  | [] => .ok false s

/-- Reads a character that satisfies a test. -/
def satisfy (test : Char → Bool) : Reader Char := fun s =>
  match s with
  | c :: rest => if test c then .ok c rest else .fail s
  | [] => .fail []

/-- Reads one given character. -/
def char (c : Char) : Reader Unit := fun s =>
  match s with
  | d :: rest => if d = c then .ok () rest else .fail s
  | [] => .fail []

/-- The rest of a text after given leading characters. -/
def afterLiteral? : List Char → List Char → Option (List Char)
  | [], s => some s
  | _ :: _, [] => none
  | c :: cs, d :: s => if c = d then afterLiteral? cs s else none

/-- Reads given text, or fails without reading. -/
def literal (text : String) : Reader Unit := fun s =>
  match afterLiteral? text.toList s with
  | some rest => .ok () rest
  | none => .fail s

/-- Reads the longest run of characters that satisfy a test. -/
def takeWhile (test : Char → Bool) : Reader (List Char) := fun s =>
  .ok (s.takeWhile test) (s.dropWhile test)

/-- Reads a run of at least one character. -/
def takeWhile1 (test : Char → Bool) : Reader (List Char) := fun s =>
  match s.takeWhile test with
  | [] => .fail s
  | cs => .ok cs (s.dropWhile test)

/-- Tries a reader; if it fails, nothing has been read. -/
def optional {α : Type} (p : Reader α) : Reader (Option α) := fun s =>
  match p s with
  | .ok a rest => .ok (some a) rest
  | .fail _ => .ok none s

/-- Tries a reader and, if it fails, another one from the same place. -/
def orElse {α : Type} (p q : Reader α) : Reader α := fun s =>
  match p s with
  | .ok a rest => .ok a rest
  | .fail _ => q s

/-- Further items of a list, each after a separator.  A separator that no item follows is left
unread. -/
def moreItems {α : Type} (item : Reader α) (separator : Reader Unit) :
    Nat → List Char → List α × List Char
  | 0, s => ([], s)
  | fuel + 1, s =>
    match (do separator; item : Reader α) s with
    | .fail _ => ([], s)
    | .ok a rest =>
      let (more, last) := moreItems item separator fuel rest
      (a :: more, last)

/-- Items with separators between them, at least one. -/
def separated1 {α : Type} (item : Reader α) (separator : Reader Unit) : Reader (List α) := fun s =>
  match item s with
  | .fail rest => .fail rest
  | .ok a rest =>
    let (more, last) := moreItems item separator rest.length rest
    .ok (a :: more) last

/-- Items with separators between them, possibly none. -/
def separated {α : Type} (item : Reader α) (separator : Reader Unit) : Reader (List α) := fun s =>
  match separated1 item separator s with
  | .ok as rest => .ok as rest
  | .fail _ => .ok [] s

/-- Repeats `item` while `continues` says so, for at most `fuel` items. -/
def repeatWhileFuel {α : Type} (continues : Reader Bool) (item : Reader α) :
    Nat → Reader (List α)
  | 0 => fail
  | fuel + 1 => do
    if ← continues then
      let a ← item
      let more ← repeatWhileFuel continues item fuel
      return a :: more
    else return []

/-- Repeats `item` while `continues` says so.  Every item reads at least one character, so there
are no more of them than characters. -/
def repeatWhile {α : Type} (continues : Reader Bool) (item : Reader α) : Reader (List α) := fun s =>
  repeatWhileFuel continues item (s.length + 1) s

/-- Further operands of a left-associative chain. -/
def chainFuel {α : Type} (operator : Reader (Option (α → α → α))) (operand : Reader α) :
    Nat → α → Reader α
  | 0, _ => fail
  | fuel + 1, acc => do
    match ← operator with
    | none => return acc
    | some combine =>
      let b ← operand
      chainFuel operator operand fuel (combine acc b)

/-- Operands joined by left-associative operators. -/
def chain {α : Type} (operator : Reader (Option (α → α → α))) (operand : Reader α) : Reader α :=
  do
    let a ← operand
    fun s => chainFuel operator operand (s.length + 1) a s

end Reader

/-- Number of bytes of a text in UTF-8. -/
def byteLength (cs : List Char) : Nat :=
  cs.foldl (fun n c => n + c.utf8Size) 0

end AffineRaising.Text
