import AbstractMachines.Execution
import AbstractMachines.Sink

/-!
# Sessions

A session is a machine worked with through text: single instructions, whole
programs, and programs traced with a snapshot of the configuration around
every instruction. A source that does not parse runs nothing.

`run` takes its input from any source of words and hands its outputs to the
same place. `trace` takes a fixed list of words and uses it from the end.
-/

namespace AbstractMachines

structure Tape where
  unread : List Word
  written : Array Word := #[]
  deriving DecidableEq

namespace Tape

instance : Source Tape where
  next
    | ⟨[], written⟩ => (none, ⟨[], written⟩)
    | ⟨v :: unread, written⟩ => (some v, ⟨unread, written⟩)

def emit (v : Word) : Tape → Tape
  | ⟨unread, written⟩ => ⟨unread, written.push v⟩

end Tape

structure Backlog where
  values : List Word
  deriving DecidableEq

instance : Source Backlog where
  next b := (b.values.getLast?, ⟨b.values.dropLast⟩)

namespace Session

variable {μ ι σ : Type} [InstructionSet ι] [Model μ ι] [Source σ]

structure LineReply (μ σ : Type) where
  result : Except SessionError (Option Word)
  machine : μ
  input : σ

def executeLine (line : List Char) (m : μ) (input : σ) : LineReply μ σ :=
  match InstructionSet.parse (ι := ι) (Text.trim line) with
  | .error e => ⟨.error (.parse e), m, input⟩
  | .ok i =>
    match execute i m input with
    | ⟨.ok output, m, input⟩ => ⟨.ok output, m, input⟩
    | ⟨.error e, m, input⟩ => ⟨.error (.runtime e), m, input⟩

/-- The result is none if the run needs more instructions than it may take. -/
structure RunReply (μ σ : Type) where
  result : Option (Except SessionError Unit)
  machine : μ
  input : σ

def run (fuel : Nat) (emit : Word → σ → σ) (source : List Char) (m : μ) (input : σ) :
    RunReply μ σ :=
  match Program.parse (ι := ι) source with
  | .error e => ⟨some (.error (.program e)), m, input⟩
  | .ok program =>
    match (Execution.start program m input).run emit fuel with
    | (.halted, x) => ⟨some (.ok ()), x.machine, x.input⟩
    | (.failed e, x) => ⟨some (.error (.runtime e)), x.machine, x.input⟩
    | (.unfinished, x) => ⟨none, x.machine, x.input⟩

structure TraceReply (μ : Type) where
  result : Option (Except SessionError (List Word))
  machine : μ
  sink : Sink

def snapshotLine (x : Execution μ ι Backlog) (outputs : Array Word) : String :=
  Model.snapshot x.machine x.input.values outputs.toList ++ "\n"

/-- Continues a trace whose current configuration has been written. -/
def traceFrom : Nat → Execution μ ι Backlog → Array Word → Sink → TraceReply μ
  | 0, x, _, sink => ⟨none, x.machine, sink⟩
  | fuel + 1, x, outputs, sink =>
    match x.step with
    | (none, x) => ⟨some (.ok outputs.toList), x.machine, sink⟩
    | (some (.error e), x) => ⟨some (.error (.runtime e)), x.machine, sink⟩
    | (some (.ok output), x) =>
      let outputs := outputs ++ output.toArray
      match sink.write (snapshotLine x outputs) with
      | (.ok _, sink) => traceFrom fuel x outputs sink
      | (.error e, sink) => ⟨some (.error (.io e)), x.machine, sink⟩

def traceProgram (fuel : Nat) (program : Program ι) (m : μ) (input : List Word) (sink : Sink) :
    TraceReply μ :=
  let x := Execution.start program m (Backlog.mk input)
  match sink.write (snapshotLine x #[]) with
  | (.ok _, sink) => traceFrom fuel x #[] sink
  | (.error e, sink) => ⟨some (.error (.io e)), x.machine, sink⟩

def trace (fuel : Nat) (source : List Char) (m : μ) (input : List Word) (sink : Sink) :
    TraceReply μ :=
  match Program.parse (ι := ι) source with
  | .error e => ⟨some (.error (.program e)), m, sink⟩
  | .ok program => traceProgram fuel program m input sink

end Session
end AbstractMachines
