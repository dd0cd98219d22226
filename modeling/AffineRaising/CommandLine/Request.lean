/-
# AffineRaising.CommandLine.Request — what the arguments ask for.

    [--log-level L] legalize [--max-iterations N] [--max-compose-steps N] [--no-dce] [--verify] FILE
    [--log-level L] print FILE

An option may come before or behind the file, its value in the next argument or after `=`.  No
option and no file may be given twice at one place; what follows `--` is never an option.  The log
level is accepted before and behind the command and changes no answer.  Arguments are read from
the left, and the first one that is wrong, or that asks for help, decides.
-/
import AffineRaising.Raise.Legalize

namespace AffineRaising.CommandLine

open AffineRaising.Raise

/-! ## Arguments -/

/-- The looks of an argument. -/
inductive Token where
  /-- `--name` or `--name=value`. -/
  | long (name : String) (value : Option String)
  /-- `-abc`: letters, each for itself. -/
  | short (letters : List Char)
  /-- `--`: only plain arguments follow. -/
  | escape
  /-- Anything else; a hyphen alone is plain too. -/
  | plain (text : String)
deriving DecidableEq, Repr

/-- Splits what follows `--` at the first equals sign. -/
def Token.ofLong (cs : List Char) : Token :=
  let value := match cs.dropWhile (· != '=') with
    | [] => none
    | _ :: rest => some (String.ofList rest)
  .long (String.ofList (cs.takeWhile (· != '='))) value

/-- The looks of an argument. -/
def Token.ofText (text : String) : Token :=
  match text.toList with
  | ['-', '-'] => .escape
  | '-' :: '-' :: cs => .ofLong cs
  | '-' :: c :: cs => .short (c :: cs)
  | _ => .plain text

/-- A decimal number that fits a 64-bit word; a plus sign may come first. -/
def readCount? (text : String) : Option Nat :=
  let digits := match text.toList with
    | '+' :: cs => cs
    | cs => cs
  if digits.isEmpty || !digits.all Char.isDigit then none
  else
    let n := digits.foldl (fun n c => 10 * n + (c.toNat - '0'.toNat)) 0
    if n < Nat.pow 2 64 then some n else none

/-! ## Requests -/

/-- The commands. -/
inductive Verb where
  | legalize
  | print
deriving DecidableEq, Repr

/-- The command of a name. -/
def Verb.ofName? : String → Option Verb
  | "legalize" => some .legalize
  | "print" => some .print
  | _ => none

/-- Where a source text comes from. -/
inductive Source where
  | standardInput
  | file (path : String)
deriving DecidableEq, Repr

/-- A path is standard input if nothing but a hyphen is left of it once the parts are dropped that
name the place where they stand. -/
def Source.ofPath (path : String) : Source :=
  match path.splitOn "/" with
  | "-" :: rest =>
    if rest.all fun part => part == "" || part == "." then .standardInput else .file path
  | _ => .file path

/-- What to do. -/
inductive Request where
  | help
  | legalize (source : Source) (config : Config) (verify : Bool)
  | print (source : Source)
deriving DecidableEq, Repr

/-- What is wrong with the arguments. -/
inductive UsageError where
  | missingCommand
  | unknownCommand (name : String)
  | unknownOption (text : String)
  | missingValue (option : String)
  | needlessValue (option : String)
  | repeatedOption (option : String)
  | notACount (option text : String)
  | emptyFile
  | missingFile
  | extraFile (text : String)
deriving DecidableEq, Repr

/-- The wording of a usage error. -/
def UsageError.message : UsageError → String
  | .missingCommand => "a command is required"
  | .unknownCommand name => "unknown command '" ++ name ++ "'"
  | .unknownOption text => "unexpected argument '" ++ text ++ "'"
  | .missingValue option => "--" ++ option ++ " takes a value"
  | .needlessValue option => "--" ++ option ++ " takes no value"
  | .repeatedOption option => "--" ++ option ++ " was given twice"
  | .notACount option text => "'" ++ text ++ "' is no number for --" ++ option
  | .emptyFile => "the name of the file is empty"
  | .missingFile => "a file is required"
  | .extraFile text => "unexpected argument '" ++ text ++ "'"

/-! ## Options -/

/-- The options that may follow a command. -/
inductive Setting where
  | maxIterations
  | maxComposeSteps
  | noDce
  | verify
  | logLevel
deriving DecidableEq, Repr

namespace Setting

/-- The name of an option. -/
def name : Setting → String
  | .maxIterations => "max-iterations"
  | .maxComposeSteps => "max-compose-steps"
  | .noDce => "no-dce"
  | .verify => "verify"
  | .logLevel => "log-level"

/-- Whether an option takes a value. -/
def takesValue : Setting → Bool
  | .noDce | .verify => false
  | _ => true

/-- The options of a command. -/
def allowed : Verb → List Setting
  | .legalize => [.maxIterations, .maxComposeSteps, .noDce, .verify, .logLevel]
  | .print => [.logLevel]

/-- The option of a command that has a name. -/
def ofName? (verb : Verb) (name : String) : Option Setting :=
  (allowed verb).find? fun o => o.name == name

end Setting

/-- What was given behind a command so far. -/
structure Given where
  file : Option String := none
  maxIterations : Option Nat := none
  maxComposeSteps : Option Nat := none
  noDce : Bool := false
  verify : Bool := false
  logLevel : Option String := none

namespace Given

/-- Whether an option was given. -/
def has (g : Given) : Setting → Bool
  | .maxIterations => g.maxIterations.isSome
  | .maxComposeSteps => g.maxComposeSteps.isSome
  | .noDce => g.noDce
  | .verify => g.verify
  | .logLevel => g.logLevel.isSome

/-- Reads the value of an option that takes a number. -/
def askCount (o : Setting) (value : String) : Except UsageError (Option Nat) :=
  match readCount? value with
  | some n => .ok (some n)
  | none => .error (.notACount o.name value)

/-- Takes an option with its value, which is of no account if the option takes none. -/
def set (g : Given) (o : Setting) (value : String) : Except UsageError Given := do
  if g.has o then throw (.repeatedOption o.name)
  match o with
  | .maxIterations => return { g with maxIterations := ← askCount o value }
  | .maxComposeSteps => return { g with maxComposeSteps := ← askCount o value }
  | .noDce => return { g with noDce := true }
  | .verify => return { g with verify := true }
  | .logLevel => return { g with logLevel := some value }

/-- Takes the file. -/
def setFile (g : Given) (path : String) : Except UsageError Given := do
  if g.file.isSome then throw (.extraFile path)
  if path.isEmpty then throw .emptyFile
  return { g with file := some path }

/-- The request that is complete once there is a file. -/
def request (g : Given) (verb : Verb) : Except UsageError Request :=
  match g.file with
  | none => .error .missingFile
  | some path =>
    let source := Source.ofPath path
    let standard : Config := {}
    match verb with
    | .print => .ok (.print source)
    | .legalize =>
      .ok (.legalize source
        { maxIterations := g.maxIterations.getD standard.maxIterations
          runDce := !g.noDce
          maxComposeSteps := g.maxComposeSteps.getD standard.maxComposeSteps }
        g.verify)

end Given

/-! ## Reading arguments -/

/-- The value of an option, if the next argument can be one, and the arguments behind it. -/
def nextValue? : List String → Option (String × List String)
  | [] => none
  | text :: rest =>
    match Token.ofText text with
    | .plain value => some (value, rest)
    | _ => none

/-- Fewer arguments are left behind the value of an option. -/
theorem nextValue?_length {args rest : List String} {value : String}
    (h : nextValue? args = some (value, rest)) : rest.length < args.length := by
  cases args with
  | nil => simp [nextValue?] at h
  | cons text tail =>
    simp only [nextValue?] at h
    split at h
    · simp only [Option.some.injEq, Prod.mk.injEq] at h
      simp [h.2]
    · simp at h

/-- Takes plain arguments as files. -/
def readFiles (g : Given) : List String → Except UsageError Given
  | [] => .ok g
  | path :: rest => do readFiles (← g.setFile path) rest

/-- Reads the arguments behind a command. -/
def readArguments (verb : Verb) (g : Given) : List String → Except UsageError Request
  | [] => g.request verb
  | text :: rest =>
    match Token.ofText text with
    | .escape => do (← readFiles g rest).request verb
    | .plain path => do readArguments verb (← g.setFile path) rest
    | .short letters => if letters.head? = some 'h' then .ok .help else .error (.unknownOption text)
    | .long "help" none => .ok .help
    | .long name value =>
      match Setting.ofName? verb name with
      | none => .error (.unknownOption text)
      | some o =>
        match o.takesValue, value with
        | false, none => do readArguments verb (← g.set o "") rest
        | false, some _ => .error (.needlessValue name)
        | true, some value => do readArguments verb (← g.set o value) rest
        | true, none =>
          match h : nextValue? rest with
          | none => .error (.missingValue name)
          | some (value, behind) =>
            have := nextValue?_length h
            do readArguments verb (← g.set o value) behind
termination_by args => args.length

/-- Help, on a command or on everything. -/
def helpOn : List String → Except UsageError Request
  | [] | ["help"] => .ok .help
  | name :: rest =>
    match Verb.ofName? name, rest with
    | some _, [] => .ok .help
    | some _, more :: _ => .error (.unknownCommand more)
    | none, _ => .error (.unknownCommand name)

/-- Reads all arguments; `leveled` says whether the log level was given already. -/
def readCommand (leveled : Bool) : List String → Except UsageError Request
  | [] => .error .missingCommand
  | text :: rest =>
    match Token.ofText text with
    | .escape => .error .missingCommand
    | .plain "help" => helpOn rest
    | .plain name =>
      match Verb.ofName? name with
      | some verb => readArguments verb {} rest
      | none => .error (.unknownCommand name)
    | .short letters => if letters.head? = some 'h' then .ok .help else .error (.unknownOption text)
    | .long "help" none => .ok .help
    | .long name value =>
      if name ≠ Setting.logLevel.name then .error (.unknownOption text)
      else if leveled then .error (.repeatedOption name)
      else
        match value with
        | some _ => readCommand true rest
        | none =>
          match h : nextValue? rest with
          | none => .error (.missingValue name)
          | some (_, behind) =>
            have := nextValue?_length h
            readCommand true behind
termination_by args => args.length

/-- Reads the arguments of the program. -/
def Request.ofArguments (args : List String) : Except UsageError Request :=
  readCommand false args

end AffineRaising.CommandLine
