import AbstractMachines.Program

/-!
# Lazy execution of programs

An execution is a program on its way: `step` runs one instruction and `next`
runs instructions until one of them produces a value, fails, or the counter
leaves the program. Nothing runs ahead of what is asked for. Once an execution
has halted or failed it stays as it is.

Programs may loop for ever, so whatever runs more than one instruction takes
the number of instructions it may run and says when that was not enough.
-/

namespace AbstractMachines

structure Execution (μ ι σ : Type) where
  program : Program ι
  machine : μ
  input : σ
  finished : Bool

namespace Execution

variable {μ ι σ : Type} [Model μ ι] [Source σ]

def start (program : Program ι) (m : μ) (input : σ) : Execution μ ι σ :=
  ⟨program, Model.setCounter 0 m, input, false⟩

def step (x : Execution μ ι σ) : Option Outcome × Execution μ ι σ :=
  match x with
  | ⟨program, m, input, true⟩ => (none, ⟨program, m, input, true⟩)
  | ⟨program, m, input, false⟩ =>
    match program.fetch (Model.counter m) with
    | none => (none, ⟨program, m, input, true⟩)
    | some i =>
      match execute i m input with
      | ⟨.ok output, m, input⟩ => (some (.ok output), ⟨program, m, input, false⟩)
      | ⟨.error e, m, input⟩ => (some (.error e), ⟨program, m, input, true⟩)

inductive Pulled where
  | value (v : Word)
  | failed (e : RuntimeError)
  | over
  | unfinished
  deriving DecidableEq

def next : Nat → Execution μ ι σ → Pulled × Execution μ ι σ
  | 0, x => (.unfinished, x)
  | fuel + 1, x =>
    match x.step with
    | (none, x) => (.over, x)
    | (some (.error e), x) => (.failed e, x)
    | (some (.ok (some v)), x) => (.value v, x)
    | (some (.ok none), x) => next fuel x

inductive Ending where
  | halted
  | failed (e : RuntimeError)
  | unfinished
  deriving DecidableEq

def run (emit : Word → σ → σ) : Nat → Execution μ ι σ → Ending × Execution μ ι σ
  | 0, x => (.unfinished, x)
  | fuel + 1, x =>
    match x.step with
    | (none, x) => (.halted, x)
    | (some (.error e), x) => (.failed e, x)
    | (some (.ok none), x) => run emit fuel x
    | (some (.ok (some v)), ⟨program, m, input, finished⟩) =>
      run emit fuel ⟨program, m, emit v input, finished⟩

end Execution
end AbstractMachines
