import AbstractMachines.Proofs.Tapes
import Mathlib.Data.List.DropRight

/-!
# A trace and a run of the same program

A trace steps through a program with its input in a list that is used from the
end, and collects the outputs. A run of the program takes its input from the
front of a tape and puts each output on it. On an input and its reverse the two
go through the same machines. With room for everything it writes, a trace also
leaves one line for the initial configuration and one for each instruction that
succeeds.
-/

namespace AbstractMachines

namespace Session

variable {μ ι : Type} [Model μ ι]

def snapshotAt (x : Execution μ ι Backlog) (before : List Word) (k : Nat) : String :=
  Model.snapshot (x.after k).machine (x.after k).input.values (before ++ x.outputs k) ++ "\n"

theorem snapshotAt_succ {x : Execution μ ι Backlog} {i : ι} {o : Option Word} {n : μ}
    {t : Backlog} (h : x.pending? = some i)
    (he : execute i x.machine x.input = ⟨.ok o, n, t⟩) (before : List Word) (k : Nat) :
    snapshotAt x before (k + 1) =
      snapshotAt ⟨x.program, n, t, false⟩ (before ++ o.toList) k := by
  simp only [snapshotAt, Execution.after_succ_of_ok h he, Execution.outputs_succ_of_ok h he,
    List.append_assoc]

theorem snapshotLine_eq (x : Execution μ ι Backlog) (before : Array Word) :
    snapshotLine x before = snapshotAt x before.toList 0 := by
  simp [snapshotLine, snapshotAt, Execution.after, Execution.outputs, Execution.history]

theorem traceFrom_unlimited (fuel : Nat) (x : Execution μ ι Backlog) (before : Array Word)
    (bytes : ByteArray) :
    traceFrom fuel x before ⟨bytes, none⟩ =
      ⟨verdict (before.toList ++ x.outputs fuel) (x.ending fuel), (x.after fuel).machine,
        ⟨bytes ++ (String.join ((List.range (x.executed fuel).length).map fun k =>
          snapshotAt x before.toList (k + 1))).toUTF8, none⟩⟩ := by
  induction fuel generalizing x before bytes with
  | zero => simp [traceFrom, Execution.ending, verdict, Execution.after, Execution.executed,
      Execution.history]
  | succ fuel ih =>
    rcases x.next_cases with h | ⟨i, o, n, t, h, he⟩ | ⟨i, e, n, t, h, he⟩
    · simp only [traceFrom, Execution.step_of_over h, Execution.ending_succ_of_over h,
        Execution.outputs_of_over h, Execution.after_succ_of_over h, Execution.executed_of_over h]
      simp [verdict]
    · have hline := snapshotLine_eq (⟨x.program, n, t, false⟩ : Execution μ ι Backlog)
        (before ++ o.toArray)
      simp only [traceFrom, Execution.step_of_ok h he, Sink.write, ih, hline,
        Execution.ending_succ_of_ok h he, Execution.after_succ_of_ok h he,
        Execution.outputs_succ_of_ok h he, Execution.executed_succ_of_ok h he,
        List.length_cons, List.range_succ_eq_map, List.map_cons, List.map_map, String.join_cons,
        snapshotAt_succ h he, Array.toList_append, Option.toList_toArray, List.append_assoc]
      simp [String.toByteArray_append, ByteArray.append_assoc, Function.comp_def]
    · simp only [traceFrom, Execution.step_of_error h he, Execution.ending_succ_of_error h he,
        Execution.outputs_of_error h he, Execution.after_succ_of_error h he,
        Execution.executed_of_error h he]
      simp [verdict]

theorem values_after [ReadingSet ι] [LawfulModel μ] (k : Nat) (x : Execution μ ι Backlog) :
    (x.after k).input.values = x.input.values.rdrop (x.reads k) := by
  obtain ⟨taken, hw, hlen⟩ := x.words_consumed k
  simp only [words_backlog] at hw
  rw [List.rdrop_eq_reverse_drop_reverse, hw, ← hlen, List.drop_left, List.reverse_reverse]

variable [InstructionSet ι]

theorem trace_unlimited {source : List Char} {p : Program ι} (hp : Program.parse source = .ok p)
    (fuel : Nat) (m : μ) (xs : List Word) (bytes : ByteArray) :
    let x := Execution.start p m (Backlog.mk xs)
    trace fuel source m xs ⟨bytes, none⟩ =
      ⟨verdict (x.outputs fuel) (x.ending fuel), (x.after fuel).machine,
        ⟨bytes ++ (String.join ((List.range ((x.executed fuel).length + 1)).map
          (snapshotAt x []))).toUTF8, none⟩⟩ := by
  intro x
  have hline := snapshotLine_eq x #[]
  simp only [trace, hp, traceProgram, Sink.write, traceFrom_unlimited, List.range_succ_eq_map,
    List.map_cons, List.map_map, String.join_cons]
  simp [String.toByteArray_append, ByteArray.append_assoc, Function.comp_def, hline, x]

theorem run_reverse {source : List Char} {p : Program ι} (hp : Program.parse source = .ok p)
    (fuel : Nat) (m : μ) (xs : List Word) :
    let x := Execution.start p m (Backlog.mk xs)
    run fuel Tape.emit source m ⟨xs.reverse, #[]⟩ =
      ⟨verdict () (x.ending fuel), (x.after fuel).machine,
        ⟨(x.after fuel).input.values.reverse, (x.outputs fuel).toArray⟩⟩ := by
  intro x
  have hx : Execution.start p m (Tape.mk xs.reverse #[]) = x.onTape #[] := rfl
  rw [run_of_parse hp, hx, x.run_onTape]
  simp [Execution.onTape]

end Session

/-- A trace and a run of a source on an input and its reverse, each given the
same number of steps. -/
theorem trace_agrees_with_run (kind : Kind) (source : List Char) (m : kind.Machine)
    (xs : List Word) (bytes : ByteArray) (fuel : Nat) :
    let t := Session.trace fuel source m xs ⟨bytes, none⟩
    let r := Session.run fuel Tape.emit source m ⟨xs.reverse, #[]⟩
    (∀ e, Program.parse (ι := kind.Instruction) source = .error e →
      t = ⟨some (.error (.program e)), m, ⟨bytes, none⟩⟩ ∧
      r = ⟨some (.error (.program e)), m, ⟨xs.reverse, #[]⟩⟩) ∧
    (∀ p, Program.parse (ι := kind.Instruction) source = .ok p →
      let x := Execution.start p m (Backlog.mk xs)
      let y := Execution.start p m (Tape.mk xs.reverse #[])
      (∀ k, x.history k = y.history k ∧ (x.after k).machine = (y.after k).machine) ∧
      t.machine = (x.after fuel).machine ∧ r.machine = (y.after fuel).machine ∧
      t.result = r.result.map (·.map fun _ => r.input.written.toList) ∧
      r.input.written.toList = y.outputs fuel ∧
      t.sink = ⟨bytes ++ (String.join ((List.range ((x.executed fuel).length + 1)).map fun k =>
        Model.snapshot (x.after k).machine (xs.rdrop (x.reads k)) (x.outputs k) ++ "\n")).toUTF8,
        none⟩) := by
  intro t r
  constructor
  · intro e he
    simp only [t, r, Session.trace, Session.run, he, and_self]
  · intro p hp x y
    have ht : t = _ := Session.trace_unlimited hp fuel m xs bytes
    have hr : r = _ := Session.run_reverse hp fuel m xs
    have hy : y = x.onTape #[] := rfl
    refine ⟨fun k => ?_, by rw [ht], ?_, ?_, ?_, ?_⟩
    · rw [hy, Execution.history_onTape, Execution.after_onTape]
      exact ⟨rfl, rfl⟩
    · rw [hr, hy, Execution.after_onTape]
      rfl
    · rw [ht, hr]
      cases x.ending fuel <;> simp [Session.verdict, Except.map]
    · rw [hr, hy, Execution.outputs_onTape]
    · have hlines : ∀ k, Session.snapshotAt x [] k =
          Model.snapshot (x.after k).machine (xs.rdrop (x.reads k)) (x.outputs k) ++ "\n" :=
        fun k => by rw [Session.snapshotAt, Session.values_after]; rfl
      rw [ht, funext hlines]

theorem echo_traced :
    let source := "READ 1\nWRITE 1\nADD".toList
    let misspelt := "READ 1\nWRITE x".toList
    let t := Session.trace 9 source (Model.initial : Kind.am0.Machine) [5, 6] ⟨.empty, none⟩
    let r := Session.run 9 Tape.emit source (Model.initial : Kind.am0.Machine) ⟨[6, 5], #[]⟩
    r.input.written = #[6] ∧ r.result = some (.error (.runtime (.stackUnderflow 2 2 0))) ∧
      t.result = r.result.map (·.map fun _ => r.input.written.toList) ∧
      Session.trace 9 misspelt (Model.initial : Kind.am0.Machine) [5, 6] ⟨.empty, none⟩ =
        ⟨some (.error (.program ⟨2, .invalidPayload "x"⟩)), Model.initial, ⟨.empty, none⟩⟩ := by
  intro source misspelt t r
  have hp : Program.parse (ι := AM0.Instruction) source =
      .ok ⟨#[⟨.access .read, 1⟩, ⟨.access .write, 1⟩, ⟨.operator .add, 0⟩]⟩ := by
    decide +kernel
  have he : Program.parse (ι := AM0.Instruction) misspelt = .error ⟨2, .invalidPayload "x"⟩ := by
    decide +kernel
  have h := (trace_agrees_with_run .am0 source Model.initial [5, 6] .empty 9).2 _ hp
  have hm := (trace_agrees_with_run .am0 misspelt Model.initial [5, 6] .empty 9).1 _ he
  exact ⟨by decide +kernel, by decide +kernel, h.2.2.2.1, hm.1⟩

end AbstractMachines
