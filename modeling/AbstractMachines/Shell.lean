import AbstractMachines.Console
import AbstractMachines.Session

/-!
# The interactive shell

The shell reads requests from a console and carries them out on a machine
until it is told to exit or the input ends. Errors of instructions are shown
and do not end the shell; a line that cannot be decoded or a sink that is full
does. An instruction that reads asks for its word on the same console.
-/

namespace AbstractMachines
namespace Shell

inductive Request where
  | nothing
  | exec (instruction : List Char)
  | reset
  | status
  | help
  | exit
  | unknown (line : List Char)
  deriving DecidableEq

def Request.ofLine (line : List Char) : Request :=
  let line := Text.trim line
  if line = [] then nothing
  else
    let (word, rest) := Text.splitOnce ' ' line
    if word = "exec".toList then exec (rest.getD [])
    else if word = "reset".toList then reset
    else if word = "status".toList then status
    else if word = "help".toList ∨ word = "?".toList then help
    else if word = "exit".toList then exit
    else unknown line

def helpText : String :=
  "Commands:\n  exec <instruction>  execute one instruction\n" ++
    "  reset               reset the machine\n" ++
    "  status              print the machine state\n" ++
    "  help                show this message\n" ++
    "  exit                leave the shell\n"

def farewell : String := "Exiting REPL...\n"

def outputLine (v : Word) : String := "Output: " ++ v.text ++ "\n"

def greeting (name : String) : String :=
  "Welcome to the " ++ name ++ " REPL, type 'help' for help\n"

def prompt (name : String) : String := name ++ " >> "

structure Reply (α μ : Type) where
  result : Except IoError α
  machine : μ
  console : Console

variable {μ ι : Type} [InstructionSet ι] [Model μ ι]

def say {α : Type} (s : String) (next : α) (m : μ) (c : Console) : Reply α μ :=
  match c.write s with
  | (.ok _, c) => ⟨.ok next, m, c⟩
  | (.error e, c) => ⟨.error e, m, c⟩

def exec (line : List Char) (m : μ) (c : Console) : Reply Bool μ :=
  match Session.executeLine line m c with
  | ⟨.ok (some v), m, c⟩ => say (outputLine v) true m c
  | ⟨.ok none, m, c⟩ => ⟨.ok true, m, c⟩
  | ⟨.error e, m, c⟩ => say ("Error: " ++ e.message ++ "\n") true m c

/-- Carries out a request; the result says whether the shell goes on. -/
def handle (r : Request) (m : μ) (c : Console) : Reply Bool μ :=
  match r with
  | .nothing => ⟨.ok true, m, c⟩
  | .exec line => exec line m c
  | .reset => ⟨.ok true, Model.initial, c⟩
  | .status => say (Model.status m ++ "\n") true m c
  | .help => say helpText true m c
  | .exit => say farewell false m c
  | .unknown line => say ("*** Unknown command: " ++ String.ofList line ++ "\n") true m c

omit [InstructionSet ι] [Model μ ι] in
theorem say_unread {α : Type} (s : String) (next : α) (m : μ) (c : Console) :
    (say s next m c).console.unread = c.unread := by
  have hw := Console.write_unread s c
  rw [say]
  split <;> simp_all

omit [InstructionSet ι] in
theorem execute_le (i : ι) (m : μ) (c : Console) :
    (execute i m c).input.unread.length ≤ c.unread.length := by
  rw [execute]
  split
  · exact Nat.le_refl _
  · exact Nat.le_refl _
  · have hle : (Source.next c).2.unread.length ≤ c.unread.length := Console.ask_le c
    split <;> simp_all

theorem executeLine_le (line : List Char) (m : μ) (c : Console) :
    (Session.executeLine line m c).input.unread.length ≤ c.unread.length := by
  rw [Session.executeLine]
  split
  · exact Nat.le_refl _
  · next i _ =>
    have hle := execute_le i m c
    split <;> simp_all

theorem exec_le (line : List Char) (m : μ) (c : Console) :
    (exec line m c).console.unread.length ≤ c.unread.length := by
  have h := executeLine_le line m c
  rw [exec]
  split <;> simp_all [say_unread]

theorem handle_le (r : Request) (m : μ) (c : Console) :
    (handle r m c).console.unread.length ≤ c.unread.length := by
  cases r <;> simp [handle, say_unread, exec_le]

def loop (m : μ) (c : Console) : Reply Unit μ :=
  match h : c.readLine (prompt (InstructionSet.name ι)) with
  | (.error e, c) => ⟨.error e, m, c⟩
  | (.ok none, c) =>
    match c.write "\n" with
    | (.error e, c) => ⟨.error e, m, c⟩
    | (.ok _, c) => say farewell () m c
  | (.ok (some line), d) =>
    match hh : handle (Request.ofLine line) m d with
    | ⟨.error e, m, c⟩ => ⟨.error e, m, c⟩
    | ⟨.ok false, m, c⟩ => ⟨.ok (), m, c⟩
    | ⟨.ok true, m', e⟩ =>
      have : e.unread.length < c.unread.length := by
        have hle := handle_le (Request.ofLine line) m d
        rw [hh] at hle
        exact Nat.lt_of_le_of_lt hle (Console.readLine_shorter h)
      loop m' e
termination_by c.unread.length

def run (m : μ) (c : Console) : Reply Unit μ :=
  match c.write (greeting (InstructionSet.name ι)) with
  | (.error e, c) => ⟨.error e, m, c⟩
  | (.ok _, c) => loop m c

end Shell
end AbstractMachines
