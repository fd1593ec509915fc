import Docpress.Assembly.Parser

/-!
# Arguments

The command is a target, which may be preceded by general options, and behind it the input
and further options.  Options that take a value have it in the same argument, as in `-oX`,
`-o=X` and `--output=X`, or in the next one.  Short options without a value can be joined in
one argument.  Behind `--` nothing is an option.

Arguments are read in order, options that are joined in one argument too.  The first mistake
counts, unless an option before it asks for the version or for help.
-/

namespace Docpress.CommandLine

/-- What is made of the input. -/
inductive Target where
  /-- a document becomes assembly text -/
  | script
  /-- assembly text becomes an object stream -/
  | asm
  /-- a document becomes an object stream -/
  | build
deriving DecidableEq, Repr, Inhabited

/-- The target with the given name. -/
def Target.ofName? : String → Option Target
  | "script" => some script
  | "asm" => some asm
  | "build" => some build
  | _ => none

/-- The options. -/
inductive Flag where
  | verbose
  | retryLimit
  | output
  | includeDir
  | annotate
  | listing
  | function
  | version
  | help
deriving DecidableEq, Repr, Inhabited

namespace Flag

/-- The long name. -/
def name : Flag → String
  | verbose => "verbose"
  | retryLimit => "retry-limit"
  | output => "output"
  | includeDir => "include"
  | annotate => "annotate"
  | listing => "listing"
  | function => "function"
  | version => "version"
  | help => "help"

/-- The short name. -/
def letter? : Flag → Option Char
  | verbose => some 'v'
  | output => some 'o'
  | includeDir => some 'I'
  | listing => some 'l'
  | function => some 'f'
  | version => some 'V'
  | help => some 'h'
  | retryLimit | annotate => none

/-- Whether the option takes a value. -/
def takesValue : Flag → Bool
  | retryLimit | output | includeDir | function => true
  | _ => false

/-- Whether the option may be given more than once. -/
def repeats : Flag → Bool
  | verbose | includeDir | function => true
  | _ => false

/-- The options before the target. -/
def general : List Flag := [verbose, retryLimit, version, help]

/-- The options behind the target. -/
def ofTarget : Target → List Flag
  | .script => [verbose, retryLimit, help, output, includeDir, annotate]
  | .asm => [verbose, retryLimit, help, output, listing, function]
  | .build => [verbose, retryLimit, help, output, includeDir, annotate, listing, function]

end Flag

/-- Why arguments make no command. -/
inductive UsageError where
  | unknownOption (name : String)
  | missingValue (flag : Flag)
  | surplusValue (flag : Flag)
  | invalidValue (flag : Flag) (value : String)
  | repeated (flag : Flag)
  | unknownTarget (name : String)
  | missingTarget
  | missingInput
  | invalidInput
  | surplusArgument (argument : String)
deriving DecidableEq, Repr, Inhabited

/-- The mistake in words. -/
def UsageError.message : UsageError → String
  | unknownOption name => s!"unknown option '{name}'"
  | missingValue flag => s!"'--{flag.name}' needs a value"
  | surplusValue flag => s!"'--{flag.name}' takes no value"
  | invalidValue flag value => s!"invalid value '{value}' for '--{flag.name}'"
  | repeated flag => s!"'--{flag.name}' cannot be used multiple times"
  | unknownTarget name => s!"unknown command '{name}'"
  | missingTarget => "a command is missing: script, asm or build"
  | missingInput => "the input is missing"
  | invalidInput => "the input has no name"
  | surplusArgument argument => s!"unexpected argument '{argument}'"

/-! ## Single arguments -/

/-- How an argument with options ends. -/
inductive Ending where
  | complete
  /-- an option that needs its value from the next argument -/
  | waiting (flag : Flag)
  /-- a letter that is no option -/
  | unknown (letter : Char)
deriving DecidableEq, Repr, Inhabited

/-- What an argument is by its form. -/
inductive Argument where
  /-- an argument that is no option -/
  | plain (text : String)
  /-- options with their values, and what stands behind them -/
  | flags (given : List (Flag × String)) (ending : Ending)
  /-- the mark behind which nothing is an option -/
  | endOfOptions
deriving DecidableEq, Repr, Inhabited

/-- Reads joined short options.  Those before an unknown letter still count. -/
def readLetters (known : List Flag) : List Char → List (Flag × String) × Ending
  | [] => ([], .complete)
  | letter :: rest =>
    match known.find? (·.letter? = some letter) with
    | none => ([], .unknown letter)
    | some flag =>
      if flag.takesValue then
        match rest with
        | [] => ([], .waiting flag)
        | '=' :: value => ([(flag, String.ofList value)], .complete)
        | value => ([(flag, String.ofList value)], .complete)
      else
        let (given, ending) := readLetters known rest
        ((flag, "") :: given, ending)

/-- Reads a long option. -/
def readName (known : List Flag) (text : List Char) : Except UsageError Argument :=
  let name := String.ofList (text.takeWhile (· ≠ '='))
  match known.find? (·.name = name), text.dropWhile (· ≠ '=') with
  | none, _ => .error (.unknownOption ("--" ++ name))
  | some flag, [] =>
    if flag.takesValue then .ok (.flags [] (.waiting flag))
    else .ok (.flags [(flag, "")] .complete)
  | some flag, _ :: value =>
    if flag.takesValue then .ok (.flags [(flag, String.ofList value)] .complete)
    else .error (.surplusValue flag)

/-- Reads an argument by its form. -/
def Argument.read (known : List Flag) (argument : String) : Except UsageError Argument :=
  match argument.toList with
  | ['-', '-'] => .ok .endOfOptions
  | '-' :: '-' :: name => readName known name
  | '-' :: letter :: rest =>
    let (given, ending) := readLetters known (letter :: rest)
    .ok (.flags given ending)
  | _ => .ok (.plain argument)

/-! ## Commands -/

/-- What the options and the input say. -/
structure Request where
  input : Option String := none
  output : Option String := none
  includeDirs : List String := []
  annotate : Bool := false
  listing : Bool := false
  functions : Assembly.FunctionTable := {}
  retryLimit : Option Nat := none
  /-- the options given so far -/
  given : List Flag := []
deriving DecidableEq, Repr, Inhabited

/-- What the arguments ask for. -/
inductive Command where
  | run (target : Target) (request : Request)
  | version
  | help
deriving DecidableEq, Repr, Inhabited

/-- The least retry limit that can be asked for.  Below it a parser may give up on plain
text. -/
def minRetryLimit : Nat := 16

/-- Reads a function and its number, as in `name=7`. -/
def readFunction? (text : String) : Option (String × UInt64) :=
  let characters := text.toList
  match characters.dropWhile (· ≠ '=') with
  | [] => none
  | _ :: id =>
    (Text.readUInt64? (String.ofList id)).map fun id =>
      (String.ofList (characters.takeWhile (· ≠ '=')), id)

/-- How reading goes on after an option. -/
inductive Step where
  | next (request : Request)
  /-- the option asks for something else than running -/
  | stop (command : Command)

namespace Request

/-- Takes note of an option and its value. -/
def apply (request : Request) (flag : Flag) (value : String) : Except UsageError Step := do
  if !flag.repeats && request.given.contains flag then throw (.repeated flag)
  let request := { request with given := flag :: request.given }
  match flag with
  | .verbose => return .next request
  | .version => return .stop .version
  | .help => return .stop .help
  | .annotate => return .next { request with annotate := true }
  | .listing => return .next { request with listing := true }
  | .output =>
    if value = "" then throw (.invalidValue flag value)
    return .next { request with output := some value }
  | .includeDir =>
    if value = "" then throw (.invalidValue flag value)
    return .next { request with includeDirs := request.includeDirs ++ [value] }
  | .retryLimit =>
    match Text.readUInt64? value with
    | some limit =>
      if limit.toNat < minRetryLimit then throw (.invalidValue flag value)
      return .next { request with retryLimit := some limit.toNat }
    | none => throw (.invalidValue flag value)
  | .function =>
    match readFunction? value with
    | some (name, id) =>
      return .next { request with functions := request.functions.insert name id }
    | none => throw (.invalidValue flag value)

/-- Takes note of several options. -/
def applyAll (request : Request) : List (Flag × String) → Except UsageError Step
  | [] => .ok (.next request)
  | (flag, value) :: rest => do
    match ← request.apply flag value with
    | .next request => request.applyAll rest
    | .stop command => return .stop command

/-- Takes note of the input. -/
def applyInput (request : Request) (input : String) : Except UsageError Request :=
  if request.input.isSome then .error (.surplusArgument input)
  else if input = "" then .error .invalidInput
  else .ok { request with input := some input }

/-- Reads arguments behind the mark that ends the options. -/
def readInputs (request : Request) (arguments : List String) : Except UsageError Request :=
  arguments.foldlM applyInput request

end Request

/-- The option that waits for its value behind an argument. -/
def Ending.waiting? : Ending → Except UsageError (Option Flag)
  | complete => .ok none
  | waiting flag => .ok (some flag)
  | unknown letter => .error (.unknownOption ("-" ++ String.singleton letter))

/-- The command for a target once all arguments are read. -/
def Command.ofRequest (target : Target) (request : Request) : Except UsageError Command :=
  if request.input.isNone then .error .missingInput else .ok (.run target request)

/-- Reads the arguments behind the target.  An option may be waiting for its value. -/
def readBehind (target : Target) (request : Request) (waiting : Option Flag) :
    List String → Except UsageError Command
  | [] =>
    match waiting with
    | some flag => .error (.missingValue flag)
    | none => Command.ofRequest target request
  | argument :: rest => do
    match waiting, ← Argument.read (Flag.ofTarget target) argument with
    | some flag, .plain value =>
      match ← request.apply flag value with
      | .next request => readBehind target request none rest
      | .stop command => return command
    | some flag, _ => throw (.missingValue flag)
    | none, .plain input => readBehind target (← request.applyInput input) none rest
    | none, .flags given ending =>
      match ← request.applyAll given with
      | .next request => readBehind target request (← ending.waiting?) rest
      | .stop command => return command
    | none, .endOfOptions => Command.ofRequest target (← request.readInputs rest)

/-- Reads what help is asked about: nothing in particular, a target, or help itself. -/
def readTopics : List String → Except UsageError Command
  | [] => .ok .help
  | [topic] =>
    if topic = "help" ∨ (Target.ofName? topic).isSome then .ok .help
    else .error (.unknownTarget topic)
  | _ :: topic :: _ => .error (.unknownTarget topic)

/-- Reads the arguments from the start.  An option may be waiting for its value.  Options that
were given before the target may be given again behind it. -/
def readAhead (request : Request) (waiting : Option Flag) :
    List String → Except UsageError Command
  | [] =>
    match waiting with
    | some flag => .error (.missingValue flag)
    | none => .error .missingTarget
  | argument :: rest => do
    match waiting, ← Argument.read Flag.general argument with
    | some flag, .plain value =>
      match ← request.apply flag value with
      | .next request => readAhead request none rest
      | .stop command => return command
    | some flag, _ => throw (.missingValue flag)
    | none, .plain name =>
      match Target.ofName? name with
      | some target => readBehind target { request with given := [] } none rest
      | none => if name = "help" then readTopics rest else throw (.unknownTarget name)
    | none, .flags given ending =>
      match ← request.applyAll given with
      | .next request => readAhead request (← ending.waiting?) rest
      | .stop command => return command
    | none, .endOfOptions => throw .missingTarget

/-- The command that the arguments make. -/
def Command.ofArguments (arguments : List String) : Except UsageError Command :=
  readAhead {} none arguments

end Docpress.CommandLine
