import NetDesc.CommandLine

namespace NetDesc

namespace CommandLine

/-- Why a file cannot be read, in the words of the system. -/
def readFailure : IO.Error → String
  | .noFileOrDirectory .. => "No such file or directory (os error 2)"
  | .permissionDenied .. => "Permission denied (os error 13)"
  | .inappropriateType .. => "Is a directory (os error 21)"
  | e => toString e

/-- The text of a file, or why it cannot be read. -/
def readText (file : String) : IO (Except String String) := do
  try
    match String.fromUTF8? (← IO.FS.readBinFile file) with
    | some text => return .ok text
    | none => return .error "stream did not contain valid UTF-8"
  catch e =>
    return .error (readFailure e)

/-- The text of the file that the arguments need, if they need one. -/
def neededText (args : List String) : IO (Except String String) :=
  match parse args with
  | .ok inv =>
    match inv.command.file? with
    | some file => readText file
    | none => return .ok ""
  | .error _ => return .ok ""

end CommandLine

end NetDesc

def main (args : List String) : IO UInt32 := do
  let text ← NetDesc.CommandLine.neededText args
  let report := NetDesc.CommandLine.execute args fun _ => text
  (← IO.getStdout).putStr report.output
  (← IO.getStderr).putStr report.errors
  return report.exitCode
