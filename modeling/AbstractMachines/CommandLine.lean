import AbstractMachines.AM0.Machine
import AbstractMachines.AM1.Machine
import AbstractMachines.Arguments
import AbstractMachines.Registry
import AbstractMachines.Shell

/-!
# Commands from start to exit

A command turns the configuration, the standard input and the files it may
read into what appears on the two output streams and an exit code: 0 for
success, 1 for a source that cannot be read or parsed and for a broken shell,
2 for an unknown instruction set, 3 for a program that fails while it runs.
-/

namespace AbstractMachines

structure Report where
  exitCode : Nat
  stdout : ByteArray := .empty
  stderr : ByteArray := .empty

namespace CommandLine

structure World where
  stdin : List UInt8
  read : String → Except IoError (List UInt8)

def failure (exitCode : Nat) (stdout : ByteArray) (message : String) : Report :=
  ⟨exitCode, stdout, (message ++ "\n").toUTF8⟩

def decode (bytes : List UInt8) : Except IoError (List Char) :=
  match Line.decode? bytes with
  | some cs => .ok cs
  | none => .error .invalidData

/-- The program text with the lines of input that remain: all lines if the
text comes from a file, none if it was the standard input itself. -/
def source (file : Option String) (w : World) : Except String (List Char × List Line) :=
  match file with
  | some path =>
    match (w.read path).bind decode with
    | .ok text => .ok (text, Line.all w.stdin)
    | .error e => .error ("error: cannot read '" ++ path ++ "': " ++ e.message)
  | none =>
    match decode w.stdin with
    | .ok text => .ok (text, [])
    | .error e => .error ("error: cannot read stdin: " ++ e.message)

def errorReport (stdout stderr : ByteArray) : SessionError → Report
  | .runtime e => ⟨3, stdout, stderr ++ ("runtime error: " ++ e.message ++ "\n").toUTF8⟩
  | e => ⟨1, stdout, stderr ++ ("error: " ++ e.message ++ "\n").toUTF8⟩

def emit (v : Word) (c : Console) : Console := (c.write (Shell.outputLine v)).2

variable {μ ι : Type} [InstructionSet ι] [Model μ ι]

def repl (m : μ) (w : World) : Report :=
  match Shell.run m ⟨Line.all w.stdin, {}⟩ with
  | ⟨.ok _, _, c⟩ => ⟨0, c.sink.bytes, .empty⟩
  | ⟨.error e, _, c⟩ => failure 1 c.sink.bytes ("error: " ++ e.message)

def exec (fuel : Nat) (file : Option String) (m : μ) (w : World) : Option Report :=
  match source file w with
  | .error message => some (failure 1 .empty message)
  | .ok (text, lines) =>
    let reply := Session.run fuel emit text m (Console.mk lines {})
    let stdout := reply.input.sink.bytes
    reply.result.map fun
      | .ok _ => ⟨0, stdout, .empty⟩
      | .error e => errorReport stdout .empty e

def trace (fuel : Nat) (file : Option String) (input : List Word) (m : μ) (w : World) :
    Option Report :=
  match source file w with
  | .error message => some (failure 1 .empty message)
  | .ok (text, _) =>
    let reply := Session.trace fuel text m input {}
    let stderr := reply.sink.bytes
    reply.result.map fun
      | .ok _ => ⟨0, .empty, stderr⟩
      | .error e => errorReport .empty stderr e

def perform (fuel : Nat) (command : Command) (m : μ) (w : World) : Option Report :=
  match command with
  | .repl => some (repl m w)
  | .exec file => exec fuel file m w
  | .trace file input => trace fuel file input m w

def run (fuel : Nat) (config : Config) (w : World) : Option Report :=
  match Registry.builtin.find config.instructions with
  | .error e => some (failure 2 .empty ("error: " ++ e.message))
  | .ok .am0 => perform fuel config.command (Model.initial : AM0.Machine) w
  | .ok .am1 => perform fuel config.command (Model.initial : AM1.Machine) w

end CommandLine
end AbstractMachines
