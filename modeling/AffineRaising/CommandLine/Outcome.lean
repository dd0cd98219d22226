/-
# AffineRaising.CommandLine.Outcome — what the program answers.

A request that succeeds prints the module and ends with code 0.  A source that cannot be read or
is refused ends with code 1 and its message, wrong arguments with code 2, and a fault inside the
program with code 101.
-/
import AffineRaising.CommandLine.Request
import AffineRaising.Pipeline

namespace AffineRaising.CommandLine

open AffineRaising.IR

/-- Exit code and output of a run. -/
structure Outcome where
  code : Nat
  stdout : String
  stderr : String
deriving DecidableEq, Repr

/-- Why a source cannot be read. -/
inductive ReadFailure where
  /-- An error of the operating system, with its number. -/
  | refused (reason : String) (number : Nat)
  /-- The bytes are not text. -/
  | notText
deriving DecidableEq, Repr

/-- The wording of a failure to read. -/
def ReadFailure.message : ReadFailure → String
  | .refused reason number => reason ++ " (os error " ++ toString number ++ ")"
  | .notText => "stream did not contain valid UTF-8"

/-- How a source is named in messages. -/
def Source.name : Source → String
  | .standardInput => "-"
  | .file path => path

namespace Outcome

/-- Success. -/
def printed (text : String) : Outcome := ⟨0, text, ""⟩

/-- Failure with a message. -/
def failed (message : String) : Outcome := ⟨1, "", "error: " ++ message ++ "\n"⟩

/-- Wrong arguments. -/
def misused (e : UsageError) : Outcome := ⟨2, "", "error: " ++ e.message ++ "\n"⟩

/-- A fault inside the program. -/
def faulted : Outcome := ⟨101, "", "internal fault\n"⟩

/-- The outcome of a computation that yields a text. -/
def ofResult : Except Fault (Except PipelineError String) → Outcome
  | .error _ => faulted
  | .ok (.error e) => failed e.message
  | .ok (.ok text) => printed text

end Outcome

/-- How the program is called. -/
def usage : String :=
  "Usage: [--log-level L] legalize [--max-iterations N] [--max-compose-steps N] [--no-dce] " ++
    "[--verify] FILE\n       [--log-level L] print FILE\n"

/-- The source that a request reads. -/
def Request.source? : Request → Option Source
  | .help => none
  | .legalize source _ _ => some source
  | .print source => some source

/-- Answers a request on the text of its source. -/
def Request.answer (r : Request) (text : String) : Outcome :=
  match r with
  | .help => .printed usage
  | .print _ => .ofResult (printSource text)
  | .legalize _ config verify =>
    .ofResult (do
      return (← legalizeSource { config := config, verify := verify } text).map (·.text))

/-- Answers a request with what reading its source gave. -/
def Request.outcome (r : Request) (source : Source) : Except ReadFailure String → Outcome
  | .ok text => r.answer text
  | .error e => .failed ("cannot read " ++ source.name ++ ": " ++ e.message)

/-- Runs the program in any setting in which sources can be read. -/
def run {m : Type → Type} [Monad m] (read : Source → m (Except ReadFailure String))
    (args : List String) : m Outcome :=
  match Request.ofArguments args with
  | .error e => return .misused e
  | .ok r =>
    match r.source? with
    | none => return r.answer ""
    | some source => do return r.outcome source (← read source)

end AffineRaising.CommandLine
