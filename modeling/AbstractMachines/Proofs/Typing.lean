import AbstractMachines.Proofs.RoundTrip
import AbstractMachines.Proofs.Tapes

/-!
# Running a program and typing it

A program can be typed into a session: look up the instruction that the counter
points at, enter its text as a line, and go on until there is none or a line
fails. Since the text of an instruction that was read says all about it, this is
the same as running the program.
-/

namespace AbstractMachines
namespace Session

variable {μ ι σ : Type} [InstructionSet ι] [Model μ ι] [Source σ]

def typeIn (emit : Word → σ → σ) (p : Program ι) : Nat → μ → σ → RunReply μ σ
  | 0, m, s => ⟨none, m, s⟩
  | k + 1, m, s =>
    match p.fetch (Model.counter m) with
    | none => ⟨some (.ok ()), m, s⟩
    | some i =>
      match executeLine (InstructionSet.render i).toList m s with
      | ⟨.error e, m, s⟩ => ⟨some (.error e), m, s⟩
      | ⟨.ok none, m, s⟩ => typeIn emit p k m s
      | ⟨.ok (some v), m, s⟩ => typeIn emit p k m (emit v s)

theorem executeLine_of_parse {line : List Char} {i : ι}
    (h : InstructionSet.parse (Text.trim line) = .ok i) (m : μ) (s : σ) :
    executeLine line m s =
      ⟨(execute i m s).outcome.mapError .runtime, (execute i m s).machine,
        (execute i m s).input⟩ := by
  rw [executeLine, h]
  dsimp only
  rcases execute i m s with ⟨e | o, n, t⟩ <;> rfl

variable [LawfulInstructionSet ι]

theorem executeLine_render {i : ι} (hi : LawfulInstructionSet.Canonical i) (m : μ) (s : σ) :
    executeLine (InstructionSet.render i).toList m s =
      ⟨(execute i m s).outcome.mapError .runtime, (execute i m s).machine,
        (execute i m s).input⟩ := by
  apply executeLine_of_parse
  rw [(LawfulInstructionSet.tidy_render i).trim_eq, LawfulInstructionSet.parse_render hi]

theorem typeIn_eq_run (emit : Word → σ → σ) {p : Program ι} (hp : p.Canonical) (k : Nat) (m : μ)
    (s : σ) :
    let r := Execution.run emit k ⟨p, m, s, false⟩
    typeIn emit p k m s = ⟨verdict () r.1, r.2.machine, r.2.input⟩ := by
  induction k generalizing m s with
  | zero => rfl
  | succ k ih =>
    cases hf : p.fetch (Model.counter m) with
    | none => simp only [typeIn, hf, Execution.run, Execution.step, verdict]
    | some i =>
      -- What is typed is the text of an instruction of the program, so it is read as that one.
      have hline := executeLine_render (hp i (Program.mem_of_fetch hf)) m s
      rcases he : execute i m s with ⟨outcome, n, t⟩
      rw [he] at hline
      rcases outcome with e | _ | v
      · simp only [typeIn, hf, hline, Execution.run, Execution.step, he]
        rfl
      · simp only [typeIn, hf, hline, Execution.run, Execution.step, he]
        exact ih n t
      · simp only [typeIn, hf, hline, Execution.run, Execution.step, he]
        exact ih n (emit v t)

end Session

/-- Running a program for any number of steps gives the same machine, the same
outputs, the same rest of the input and the same error as typing its lines. -/
theorem running_is_typing (kind : Kind) {σ : Type} [Source σ] (emit : Word → σ → σ)
    {source : List Char} {p : Program kind.Instruction} (hp : Program.parse source = .ok p)
    (m : kind.Machine) (s : σ) (k : Nat) :
    Session.run k emit source m s = Session.typeIn emit p k (Model.setCounter 0 m) s := by
  rw [Session.run_of_parse hp, Session.typeIn_eq_run emit (Program.canonical_of_parse hp)]
  rfl

def doubling : List Char :=
  "READ(global,1)\r\nLOAD(global,+1)\n\nLIT(02)\nMUL\nSTORE( global,1)\nWRITE(global,1)\nRET".toList

def doublingProgram : Program AM1.Instruction :=
  ⟨#[.direct .read ⟨.globalBase, 1⟩, .direct .load ⟨.globalBase, 1⟩, .lit 2, .operator .mul,
    .direct .store ⟨.globalBase, 1⟩, .direct .write ⟨.globalBase, 1⟩, .ret 0]⟩

def doublingMachine : AM1.Machine := { counter := 5, runtime := #[0] }

theorem doubling_typed :
    Program.parse doubling = .ok doublingProgram ∧
    Session.run 9 Tape.emit doubling doublingMachine ⟨[21], #[]⟩ =
      Session.typeIn Tape.emit doublingProgram 9 (Model.setCounter 0 doublingMachine)
        ⟨[21], #[]⟩ ∧
    (Session.run 9 Tape.emit doubling doublingMachine ⟨[21], #[]⟩).result =
      some (.error (.runtime (.missingAddress 6 (-1)))) := by
  have hp : Program.parse doubling = .ok doublingProgram := rfl
  have hend : ((Execution.start doublingProgram doublingMachine (Tape.mk [21] #[])).run
      Tape.emit 9).1 = .failed (.missingAddress 6 (-1)) := by decide +kernel
  refine ⟨hp, running_is_typing .am1 Tape.emit hp doublingMachine ⟨[21], #[]⟩ 9, ?_⟩
  rw [Session.run_of_parse hp]
  exact congrArg (Session.verdict ()) hend

end AbstractMachines
