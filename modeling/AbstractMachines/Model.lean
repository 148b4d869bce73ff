import AbstractMachines.Error

/-!
# Instruction sets and the machines that execute them

A machine does not see where its input comes from. Given an instruction it
either finishes, or fails, or asks for one word to put into a memory cell, and
`execute` answers that request from a source of words. A machine that fails is
handed back as part of the answer, together with the error.
-/

namespace AbstractMachines

/-- Somewhere to read words from. Asking may change the source even when it has
no word to give. -/
class Source (σ : Type) where
  next : σ → Option Word × σ

instance : Source (List Word) where
  next
    | [] => (none, [])
    | v :: vs => (some v, vs)

class InstructionSet (ι : Type) where
  name : String
  parse : List Char → Except ParseError ι
  render : ι → String
  isJump : ι → Bool
  hasPayload : ι → Bool

inductive Action (μ : Type) where
  | done (m : μ) (output : Option Word)
  | fail (m : μ) (e : RuntimeError)
  | read (m : μ) (address : Word)

class Model (μ : Type) (ι : outParam Type) where
  initial : μ
  counter : μ → Word
  setCounter : Word → μ → μ
  act : ι → μ → Action μ
  /-- Puts the word asked for into the cell it was asked for, and goes on. -/
  deliver : Word → Word → μ → μ
  status : μ → String
  /-- The configuration with the given unread input and outputs so far, on one line. -/
  snapshot : μ → List Word → List Word → String

abbrev Outcome := Except RuntimeError (Option Word)

structure Reply (μ σ : Type) where
  outcome : Outcome
  machine : μ
  input : σ

variable {μ ι σ : Type} [Model μ ι] [Source σ]

def execute (i : ι) (m : μ) (input : σ) : Reply μ σ :=
  match Model.act i m with
  | .done m output => ⟨.ok output, m, input⟩
  | .fail m e => ⟨.error e, m, input⟩
  | .read m address =>
    match Source.next input with
    | (some v, input) => ⟨.ok none, Model.deliver address v m, input⟩
    | (none, input) => ⟨.error (.inputExhausted (Model.counter m)), m, input⟩

end AbstractMachines
