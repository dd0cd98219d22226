/-
# AffineRaising.Main — the command line program.

Everything is decided by `CommandLine.run`; what is left here is reading files and standard input,
and writing the outcome.
-/
import AffineRaising.CommandLine.Outcome

namespace AffineRaising.CommandLine

/-- An error of the operating system.  Some calls report its number negated, with a reason that does
not start with a capital. -/
def refusal (number : UInt32) (reason : String) : ReadFailure :=
  .refused reason.capitalize (if number.toNat < Nat.pow 2 31 then number else -number).toNat

/-- Why a file could not be read. -/
def readFailure : IO.Error → ReadFailure
  | .noFileOrDirectory _ number reason
  | .inappropriateType _ number reason
  | .permissionDenied _ number reason
  | .resourceExhausted _ number reason
  | .invalidArgument _ number reason
  | .noSuchThing _ number reason
  | .alreadyExists _ number reason => refusal number reason
  | .otherError number reason
  | .hardwareFault number reason
  | .resourceBusy number reason
  | .timeExpired number reason
  | .unsupportedOperation number reason => refusal number reason
  | other => .refused other.toString 0

/-- Reads bytes as text. -/
def textOf (bytes : ByteArray) : Except ReadFailure String :=
  match String.fromUTF8? bytes with
  | some text => .ok text
  | none => .error .notText

/-- Reads a source. -/
def readSource : Source → IO (Except ReadFailure String)
  | .standardInput => do return textOf (← (← IO.getStdin).readBinToEnd)
  | .file path =>
    try
      return textOf (← IO.FS.readBinFile path)
    catch e => return .error (readFailure e)

end AffineRaising.CommandLine

/-- Runs the program. -/
def main (args : List String) : IO UInt32 := do
  let outcome ← AffineRaising.CommandLine.run AffineRaising.CommandLine.readSource args
  IO.print outcome.stdout
  IO.eprint outcome.stderr
  return outcome.code.toUInt32
