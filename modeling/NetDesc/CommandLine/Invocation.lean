import NetDesc.Session

namespace NetDesc

namespace CommandLine

/-- What is to be done. -/
inductive Command where
  /-- Computes a member for its effects. -/
  | run (file member : String)
  /-- Shows a value: the whole tree or one member of it. -/
  | eval (file : String) (member : Option String) (format : String)
  /-- Lists the types that can be instantiated. -/
  | types
  | version
  | help
deriving DecidableEq

structure Invocation where
  command : Command
  verbose : Bool := false
  quiet : Bool := false
deriving DecidableEq

namespace Command

/-- The file whose text the command needs. -/
def file? : Command → Option String
  | run file _ => some file
  | eval file _ _ => some file
  | _ => none

end Command

/-- Why arguments make no invocation. -/
inductive UsageError where
  | missingCommand
  | unknownCommand (name : String)
  | unknownOption (name : String)
  | missingValue (option : String)
  | unexpectedValue (option : String)
  | repeated (option : String)
  | missingFile
  | unexpectedArgument (text : String)
deriving DecidableEq

namespace UsageError

def message : UsageError → String
  | missingCommand => "a subcommand is required"
  | unknownCommand name => s!"unrecognized subcommand '{name}'"
  | unknownOption name => s!"unexpected argument '{name}' found"
  | missingValue option => s!"a value is required for '{option}' but none was supplied"
  | unexpectedValue option => s!"unexpected value for '{option}' found; no more were expected"
  | repeated option => s!"the argument '{option}' cannot be used multiple times"
  | missingFile => "the following required arguments were not provided: <FILE>"
  | unexpectedArgument text => s!"unexpected argument '{text}' found"

end UsageError

/-- The options. `version` and `help` end the reading of arguments. -/
inductive Switch where
  | verbose
  | quiet
  | member
  | source
  | format
  | version
  | help
deriving DecidableEq

namespace Switch

def longName : Switch → String
  | verbose => "verbose"
  | quiet => "quiet"
  | member => "member"
  | source => "source"
  | format => "format"
  | version => "version"
  | help => "help"

def letter : Switch → Char
  | verbose => 'v'
  | quiet => 'q'
  | member => 'm'
  | source => 's'
  | format => 'f'
  | version => 'V'
  | help => 'h'

def takesValue : Switch → Bool
  | member | source | format => true
  | _ => false

def text (s : Switch) : String :=
  "--" ++ s.longName

end Switch

/-- The commands by name. -/
inductive Verb where
  | run
  | eval
  | types
deriving DecidableEq

namespace Verb

def ofName? : String → Option Verb
  | "run" => some run
  | "eval" => some eval
  | "types" => some types
  | _ => none

/-- The options that may stand after a command. -/
def switches : Verb → List Switch
  | run => [.verbose, .quiet, .help, .member, .source]
  | eval => [.verbose, .quiet, .help, .member, .source, .format]
  | types => [.verbose, .quiet, .help]

end Verb

/-- The options that may stand before the command. -/
def leadingSwitches : List Switch :=
  [.verbose, .quiet, .help, .version]

/-- What has been read of the arguments, which are read from left to right into options with
    their values, a command and a file. -/
structure Parsed where
  verb : Option Verb := none
  file : Option String := none
  /-- Options with their values, the last one first. -/
  given : List (Switch × String) := []
  /-- No options are expected any more. -/
  optionsEnded : Bool := false
deriving DecidableEq

namespace Parsed

def switches (p : Parsed) : List Switch :=
  match p.verb with
  | none => leadingSwitches
  | some verb => verb.switches

def valueOf? (p : Parsed) (s : Switch) : Option String :=
  p.given.lookup s

def has (p : Parsed) (s : Switch) : Bool :=
  (p.valueOf? s).isSome

/-- Adds an option, which may be given only once. -/
def addSwitch (p : Parsed) (s : Switch) (value : String) : Except UsageError Parsed :=
  if p.has s then .error (.repeated s.text)
  else .ok { p with given := (s, value) :: p.given }

/-- Adds an argument that is no option: the command or its file. -/
def addPlain (p : Parsed) (text : String) : Except UsageError Parsed :=
  match p.verb with
  | none =>
    match Verb.ofName? text with
    | some verb => .ok { p with verb := some verb }
    | none => .error (.unknownCommand text)
  | some .types => .error (.unexpectedArgument text)
  | some _ =>
    if p.file.isSome then .error (.unexpectedArgument text)
    else if text.isEmpty then .error .missingFile
    else .ok { p with file := some text }

end Parsed

/-- Whether an argument looks like options. A single dash does not. -/
def isOption (text : String) : Bool :=
  text.startsWith "-" && text != "-"

/-- Reads the letters of an argument such as `-qm`. A letter whose option takes a value takes the
    rest of the argument, or the next argument if there is no rest. -/
def readLetters (p : Parsed) : List Char → List String → Except UsageError (Parsed × List String)
  | [], rest => .ok (p, rest)
  | letter :: letters, rest =>
    match p.switches.find? (·.letter == letter) with
    | none => .error (.unknownOption s!"-{letter}")
    | some s =>
      if s.takesValue then
        match letters, rest with
        | '=' :: value, rest => do return (← p.addSwitch s (String.ofList value), rest)
        | [], value :: rest =>
          if isOption value then .error (.missingValue s.text)
          else do return (← p.addSwitch s value, rest)
        | [], [] => .error (.missingValue s.text)
        | value, rest => do return (← p.addSwitch s (String.ofList value), rest)
      else do
        readLetters (← p.addSwitch s "") letters rest

/-- Reads an option by its name. Its value follows an equals sign or is the next argument. -/
def readLong (p : Parsed) (name : String) (attached : Option String) (rest : List String) :
    Except UsageError (Parsed × List String) :=
  match p.switches.find? (·.longName == name) with
  | none => .error (.unknownOption ("--" ++ name))
  | some s =>
    if s.takesValue then
      match attached, rest with
      | some value, rest => do return (← p.addSwitch s value, rest)
      | none, value :: rest =>
        if isOption value then .error (.missingValue s.text)
        else do return (← p.addSwitch s value, rest)
      | none, [] => .error (.missingValue s.text)
    else if attached.isSome then
      .error (.unexpectedValue s.text)
    else do
      return (← p.addSwitch s "", rest)

/-- Reads one argument, and the next one too if it is a value. -/
def readArgument (p : Parsed) (arg : String) (rest : List String) :
    Except UsageError (Parsed × List String) :=
  if p.optionsEnded then do
    return (← p.addPlain arg, rest)
  else
    match arg.toList with
    | ['-', '-'] => .ok ({ p with optionsEnded := true }, rest)
    | '-' :: '-' :: long =>
      let name := long.takeWhile (· != '=')
      let attached :=
        match long.dropWhile (· != '=') with
        | _ :: value => some (String.ofList value)
        | [] => none
      readLong p (String.ofList name) attached rest
    | '-' :: letter :: letters => readLetters p (letter :: letters) rest
    | _ => do return (← p.addPlain arg, rest)

/-- Reads arguments until they end or ask for the version or for help. Every round takes an
    argument, so `fuel` need not exceed their number. -/
def readArguments (p : Parsed) : (fuel : Nat) → List String → Except UsageError Parsed
  | _, [] => .ok p
  | 0, _ => .ok p
  | fuel + 1, arg :: rest => do
    let (p, rest) ← readArgument p arg rest
    if p.has .version || p.has .help then
      return p
    else
      readArguments p fuel rest

/-- The command that was read. -/
def commandOf (p : Parsed) : Except UsageError Command :=
  if p.has .version then
    .ok .version
  else if p.has .help then
    .ok .help
  else
    match p.verb, p.file with
    | none, _ => .error .missingCommand
    | some .types, _ => .ok .types
    | some _, none => .error .missingFile
    | some .run, some file => .ok (.run file ((p.valueOf? .member).getD Evaluator.actionName))
    | some .eval, some file =>
      .ok (.eval file (p.valueOf? .member) ((p.valueOf? .format).getD ""))

/-- The invocation that arguments denote, or what is missing or too much in them. -/
def parse (args : List String) : Except UsageError Invocation := do
  let p ← readArguments {} args.length args
  let command ← commandOf p
  return { command, verbose := p.has .verbose, quiet := p.has .quiet }

end CommandLine

end NetDesc
