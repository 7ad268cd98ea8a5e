import NetDesc.CommandLine.Invocation
import NetDesc.Tree.Reader

namespace NetDesc

namespace CommandLine

/-- What an invocation leaves to be written to the two streams, and the exit code. Nothing before
    that touches files or streams. -/
structure Report where
  exitCode : UInt32 := 0
  output : String := ""
  errors : String := ""
deriving DecidableEq

/-- No evaluation that fits into a computer nests its calls this deep. -/
def fuel : Nat := Nat.pow 2 62

def versionText : String := "netdl 0.3.0"

def usageText : String :=
  "Usage: netdl [OPTIONS] <run|eval|types>"

def line (s : String) : String :=
  s ++ "\n"

/-- A line in color. -/
def coloredLine (color : Nat) (s : String) : String :=
  line s!"\x1b[{color}m{s}\x1b[0m"

/-- A line that starts with a colored word. -/
def taggedLine (color : Nat) (tag s : String) : String :=
  line (s!"\x1b[{color}m{tag}:\x1b[0m " ++ s)

/-- A command has failed. What it has written stays, and unless errors are kept quiet a last line
    says why. -/
def failed (quiet : Bool) (output reported reason : String) : Report where
  exitCode := 1
  output := output
  errors := reported ++ if quiet then "" else taggedLine 31 "error" reason

/-- The file cannot be used. -/
def loadFailed (quiet : Bool) (file : String) (code : ErrorCode) (message : String) : Report :=
  let d := (Diagnostic.error .input .unknown message).withCode code
  failed quiet "" (line d.text) s!"cannot load '{file}'"

/-- Everything that has been printed during evaluation. -/
def printedLines (s : Store) : String :=
  String.join (s.printed.toList.map line)

/-- Evaluation has failed. -/
def evaluationFailed (quiet : Bool) (e : EvalError) (s : Store) : Report :=
  failed quiet (printedLines s) (line e.toDiagnostic.text) "evaluation failed"

/-- Evaluation was given up. -/
def givenUp (quiet : Bool) : Report :=
  failed quiet "" "" "evaluation given up"

/-- What is shown of the value of a member: its text, or its type if it has no text. -/
def shownValue (ev : Evaluator) (v : Value) (s : Store) : String × Store :=
  match ev.formatValue fuel v "" s with
  | .value text s => (text, s)
  | .error _ s => (v.typeName, s)
  | .exhausted => (v.typeName, s)

/-- Computes a member and, if asked to be verbose, shows it. -/
def runMember (inv : Invocation) (root : Expr) (member : String) : Report :=
  let ev : Evaluator := {}
  match ev.evaluateMember fuel root member {} with
  | .value v s =>
    if inv.verbose then
      let (text, s) := shownValue ev v s
      { output := printedLines s ++ taggedLine 34 "info" s!"{member} = {text}" }
    else
      { output := printedLines s }
  | .error e s => evaluationFailed inv.quiet e s
  | .exhausted => givenUp inv.quiet

/-- Shows the value of a tree or of one of its members. -/
def showValue (inv : Invocation) (root : Expr) (member : Option String) (format : String) :
    Report :=
  let ev : Evaluator := {}
  let value :=
    match member with
    | some name => ev.evaluateMember fuel root name {}
    | none => ev.evaluateTopLevel fuel root {}
  match value.bind (ev.formatValue fuel · format) with
  | .value text s => { output := printedLines s ++ coloredLine 32 text }
  | .error e s => evaluationFailed inv.quiet e s
  | .exhausted => givenUp inv.quiet

/-- The types that can be instantiated, one a line. -/
def typeList (r : Registry) : String :=
  String.join (r.types.map fun (name, t) =>
    line (if t.isRecordLike then name ++ " (record-like)" else name))

/-- Carries out a command on the tree in its file. -/
def onTree (inv : Invocation) (root : Expr) : Report :=
  match inv.command with
  | .run _ member => runMember inv root member
  | .eval _ member format => showValue inv root member format
  | .types => { output := typeList .standard }
  | .version => { output := line versionText }
  | .help => { output := line usageText }

/-- Carries out an invocation on the text of its file, or on the reason why that cannot be read. -/
def onText (inv : Invocation) (file : String) (text : Except String String) : Report :=
  match text with
  | .error reason =>
    loadFailed inv.quiet file .unreadableInput s!"cannot read '{file}': {reason}"
  | .ok text =>
    match Tree.ofText text with
    | .ok root => onTree inv root
    | .error e =>
      loadFailed inv.quiet file .malformedTree s!"malformed expression tree: {e.message}"

/-- The arguments make no invocation. -/
def usageFailed (e : UsageError) : Report where
  exitCode := 2
  errors := line s!"error: {e.message}" ++ line usageText

/-- Carries out what the arguments say, given the texts of files. -/
def execute (args : List String) (read : String → Except String String) : Report :=
  match parse args with
  | .error e => usageFailed e
  | .ok inv =>
    match inv.command.file? with
    | some file => onText inv file (read file)
    | none => onTree inv default

end CommandLine

end NetDesc
