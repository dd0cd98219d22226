/-
# AffineRaising.Text.Quoted — string literals.

Between quotes, a backslash introduces an escape: a quote, a backslash, one of `n t r 0`, or `x`
and two hexadecimal digits.  Writing escapes exactly the quote, the backslash and the control
characters; reading keeps an escape it does not know as it stands.
-/
import AffineRaising.Text.Reader

namespace AffineRaising.Text

/-- Control characters: the C0 and C1 sets and DEL. -/
def isControl (c : Char) : Bool :=
  decide (c.toNat < 0x20) || (decide (0x7f ≤ c.toNat) && decide (c.toNat ≤ 0x9f))

/-- Value of a hexadecimal digit. -/
def hexValue? (c : Char) : Option Nat :=
  if '0' ≤ c ∧ c ≤ '9' then some (c.toNat - '0'.toNat)
  else if 'a' ≤ c ∧ c ≤ 'f' then some (c.toNat - 'a'.toNat + 10)
  else if 'A' ≤ c ∧ c ≤ 'F' then some (c.toNat - 'A'.toNat + 10)
  else none

/-- Lower-case hexadecimal digit of a number below sixteen. -/
def hexDigit (n : Nat) : Char :=
  if n < 10 then Char.ofNat ('0'.toNat + n) else Char.ofNat ('a'.toNat + (n - 10))

/-- How a character is written inside quotes. -/
def escapeChar (c : Char) : List Char :=
  if c = '\\' then ['\\', '\\']
  else if c = '"' then ['\\', '"']
  else if c = '\n' then ['\\', 'n']
  else if c = '\t' then ['\\', 't']
  else if c = '\r' then ['\\', 'r']
  else if c.toNat = 0 then ['\\', '0']
  else if isControl c then ['\\', 'x', hexDigit (c.toNat / 16), hexDigit (c.toNat % 16)]
  else [c]

/-- A text in quotes. -/
def quote (s : String) : String :=
  String.ofList ('"' :: (s.toList.flatMap escapeChar ++ ['"']))

/-- What an escape of one character stands for. -/
def unescapeSimple (c : Char) : List Char :=
  if c = '"' then ['"']
  else if c = '\\' then ['\\']
  else if c = 'n' then ['\n']
  else if c = 't' then ['\t']
  else if c = 'r' then ['\r']
  else if c = '0' then [Char.ofNat 0]
  else ['\\', c]

/-- What the escape `x` with two characters stands for: the character of that number.  A plus sign
may take the place of a leading zero; anything else is kept as it stands. -/
def unescapeHex (h l : Char) : List Char :=
  match (if h = '+' then some 0 else hexValue? h), hexValue? l with
  | some a, some b => [Char.ofNat (16 * a + b)]
  | _, _ => ['\\', 'x', h, l]

/-- Puts characters in front of a text that was read. -/
def Reply.prepend (cs : List Char) : Reply (List Char) → Reply (List Char)
  | .ok more rest => .ok (cs ++ more) rest
  | .fail rest => .fail rest

/-- Reads up to the closing quote. -/
def readQuotedTail : Reader (List Char)
  | [] => .fail []
  | c :: rest =>
    if c = '"' then .ok [] rest
    else if c = '\\' then
      match rest with
      | [] => .fail []
      | e :: rest' =>
        if e = 'x' then
          match rest' with
          | h :: l :: rest'' => (readQuotedTail rest'').prepend (unescapeHex h l)
          | _ => .fail []
        else (readQuotedTail rest').prepend (unescapeSimple e)
    else (readQuotedTail rest).prepend [c]

/-- Reads a string literal. -/
def readQuoted : Reader String := do
  Reader.char '"'
  let cs ← readQuotedTail
  return String.ofList cs

end AffineRaising.Text
