import AbstractMachines.CommandLine

/-!
# The program

Standard input is read to its end before a command starts, and only by the
commands that have a use for it.
-/

namespace AbstractMachines
namespace CommandLine

def usageText : String :=
  "Usage: amn [-i <INSTRUCTIONS>] <COMMAND>\n\nCommands:\n" ++
    "  repl                             interactive shell on standard input\n" ++
    "  exec [FILE]                      run a program\n" ++
    "  trace [--input <N>,...] [FILE]   run a program and show every configuration\n" ++
    "  help [COMMAND]                   show this message\n\nOptions:\n" ++
    "  -i, --instructions <INSTRUCTIONS>  instruction set, AM0 by default\n" ++
    "  -h, --help                         show this message\n" ++
    "  -V, --version                      show the version\n"

def showUsage (u : Usage) : IO Unit := do
  match u with
  | .displayHelp => (← IO.getStdout).putStr usageText
  | .displayVersion => (← IO.getStdout).putStr Usage.versionText
  | _ => (← IO.getStderr).putStr usageText

partial def readAll (stream : IO.FS.Stream) (bytes : ByteArray) : IO ByteArray := do
  let chunk ← stream.read 65536
  if chunk.isEmpty then return bytes else readAll stream (bytes ++ chunk)

/-- Codes of the system come with either sign. -/
def errorOf : IO.Error → IoError
  | .noFileOrDirectory .. => .notFound
  | .inappropriateType _ code _ => if code = 21 ∨ code = -21 then .isDirectory else .notDirectory
  | e@(.invalidArgument _ code _) =>
    if code = 36 ∨ code = -36 then .nameTooLong else .other (toString e)
  | e => .other (toString e)

def readFile (path : String) : IO (Except IoError (List UInt8)) := do
  try
    return .ok (← IO.FS.readBinFile path).toList
  catch e => return .error (errorOf e)

def worldFor (command : Command) : IO World := do
  let stdin ←
    match command with
    | .trace (some _) _ => pure ByteArray.empty
    | _ => readAll (← IO.getStdin) .empty
  let content ←
    match command with
    | .exec (some path) | .trace (some path) _ => readFile path
    | _ => pure (.error .notFound)
  return ⟨stdin.toList, fun _ => content⟩

partial def runToEnd (fuel : Nat) (config : Config) (w : World) : IO Report := do
  match run fuel config w with
  | some report => return report
  | none => runToEnd (2 * fuel) config w

end CommandLine
end AbstractMachines

open AbstractMachines

def main (args : List String) : IO UInt32 := do
  match Arguments.parse args with
  | .error u =>
    CommandLine.showUsage u
    return u.exitCode.toUInt32
  | .ok config =>
    let report ← CommandLine.runToEnd 1000000 config (← CommandLine.worldFor config.command)
    (← IO.getStdout).write report.stdout
    (← IO.getStderr).write report.stderr
    return report.exitCode.toUInt32
