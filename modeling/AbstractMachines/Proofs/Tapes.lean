import AbstractMachines.Proofs.Simulation

/-!
# Input from a list and output to a tape

Lists and backlogs both give the words of a finite list, the one from the front
and the other from the end. An execution takes the words of such a source in
order, one for each instruction that reads. A run on a tape that holds the same
words goes through the same steps and puts the outputs on the tape.
-/

namespace AbstractMachines

class ListedSource (σ : Type) [Source σ] where
  words : σ → List Word
  next_value (s : σ) : (Source.next s).1 = (words s).head?
  next_words (s : σ) : words (Source.next s).2 = (words s).tail

open ListedSource

instance : ListedSource (List Word) where
  words := id
  next_value s := by cases s <;> rfl
  next_words s := by cases s <;> rfl

instance : ListedSource Backlog where
  words b := b.values.reverse
  next_value _ := List.head?_reverse.symm
  next_words _ := List.tail_reverse.symm

@[simp] theorem words_backlog (b : Backlog) : words b = b.values.reverse := rfl

variable {μ ι σ : Type} [Model μ ι] [Source σ] [ListedSource σ]

theorem sameWords_tape (written : Array Word) :
    SameWords fun (s : σ) (t : Tape) => t = ⟨words s, written⟩ where
  value {s t} h := by
    subst h
    rw [next_value s]
    cases words s <;> rfl
  rest {s t} h := by
    subst h
    rw [next_words s]
    cases words s <;> rfl

theorem execute_tape (i : ι) (m : μ) (s : σ) (written : Array Word) :
    execute i m (Tape.mk (words s) written) =
      ⟨(execute i m s).outcome, (execute i m s).machine,
        ⟨words (execute i m s).input, written⟩⟩ := by
  have h := execute_alike (R := Eq) (fun m n h => by rw [h]) (sameWords_tape written) (s := s) rfl
    (Action.alike_refl (Model.act i m))
  match hx : execute i m (Tape.mk (words s) written) with
  | ⟨o, n, t⟩ =>
    rw [hx] at h
    obtain ⟨rfl, rfl, rfl⟩ := h
    rfl

namespace Execution

def onTape (written : Array Word) (x : Execution μ ι σ) : Execution μ ι Tape :=
  ⟨x.program, x.machine, ⟨words x.input, written⟩, x.finished⟩

theorem step_onTape (written : Array Word) (x : Execution μ ι σ) :
    (x.onTape written).step = (x.step.1, x.step.2.onTape written) := by
  have hp : (x.onTape written).pending? = x.pending? := rfl
  rcases x.next_cases with h | ⟨i, o, n, t, h, he⟩ | ⟨i, e, n, t, h, he⟩
  · rw [step_of_over h, step_of_over (hp.trans h)]
    rfl
  · have hx := execute_tape i x.machine x.input written
    rw [he] at hx
    rw [step_of_ok h he, step_of_ok (hp.trans h) hx]
    rfl
  · have hx := execute_tape i x.machine x.input written
    rw [he] at hx
    rw [step_of_error h he, step_of_error (hp.trans h) hx]
    rfl

theorem after_onTape (written : Array Word) (k : Nat) (x : Execution μ ι σ) :
    (x.onTape written).after k = (x.after k).onTape written := by
  induction k generalizing x with
  | zero => rfl
  | succ k ih => rw [after, after, step_onTape, ih]

theorem history_onTape (written : Array Word) (k : Nat) (x : Execution μ ι σ) :
    (x.onTape written).history k = x.history k := by
  induction k generalizing x with
  | zero => rfl
  | succ k ih =>
    have hp : (x.onTape written).pending? = x.pending? := rfl
    simp only [history, hp, step_onTape]
    rcases x.next_cases with h | ⟨i, o, n, t, h, he⟩ | ⟨i, e, n, t, h, he⟩
    · simp only [h]
    · simp only [h, step_of_ok h he, ih]
    · simp only [h, step_of_error h he, ih]

theorem outputs_onTape (written : Array Word) (k : Nat) (x : Execution μ ι σ) :
    (x.onTape written).outputs k = x.outputs k := by
  rw [outputs, outputs, history_onTape]

theorem run_onTape (fuel : Nat) (written : Array Word) (x : Execution μ ι σ) :
    (x.onTape written).run Tape.emit fuel =
      (x.ending fuel, (x.after fuel).onTape (written ++ (x.outputs fuel).toArray)) := by
  induction fuel generalizing written x with
  | zero => simp [run, ending, after, outputs, history]
  | succ fuel ih =>
    rcases x.next_cases with h | ⟨i, o, n, t, h, he⟩ | ⟨i, e, n, t, h, he⟩
    · rw [run, step_onTape, step_of_over h, ending_succ_of_over h, after_succ_of_over h,
        outputs_of_over h]
      simp
    · rw [run, step_onTape, step_of_ok h he, ending_succ_of_ok h he, after_succ_of_ok h he,
        outputs_succ_of_ok h he]
      cases o with
      | none => simpa using ih written ⟨x.program, n, t, false⟩
      | some v => simpa [onTape, Tape.emit] using ih (written.push v) ⟨x.program, n, t, false⟩
    · rw [run, step_onTape, step_of_error h he, ending_succ_of_error h he,
        after_succ_of_error h he, outputs_of_error h he]
      simp

theorem words_consumed [LawfulSource σ] [ReadingSet ι] [LawfulModel μ] (k : Nat)
    (x : Execution μ ι σ) :
    ∃ taken, words x.input = taken ++ words (x.after k).input ∧ taken.length = x.reads k := by
  induction k generalizing x with
  | zero => exact ⟨[], rfl, rfl⟩
  | succ k ih =>
    rcases x.next_cases with h | ⟨i, o, n, t, h, he⟩ | ⟨i, e, n, t, h, he⟩
    · rw [after_succ_of_over h, reads_of_over h]
      exact ⟨[], rfl, rfl⟩
    · rw [after_succ_of_ok h he, reads_succ_of_ok h he]
      obtain ⟨taken, hw, hlen⟩ := ih ⟨x.program, n, t, false⟩
      rcases execute_ok he with ⟨hr, -, rfl⟩ | ⟨hr, -, a, v, -, hs, -⟩
      · exact ⟨taken, hw, by simp [hr, hlen]⟩
      · have hv := next_value x.input
        have ht := next_words x.input
        rw [hs] at hv ht
        obtain ⟨rest, hrest⟩ := List.head?_eq_some_iff.1 hv.symm
        rw [hrest, List.tail_cons] at ht
        refine ⟨v :: taken, ?_, by simp [hr, hlen, Nat.add_comm]⟩
        rw [hrest, List.cons_append, ← hw, ht]
    · have hx := (execute_error (i := i) (m := x.machine) (s := x.input) (by rw [he])).1
      rw [he, Reply.mk.injEq] at hx
      rw [after_succ_of_error h he, reads_of_error h he, hx.2.2]
      exact ⟨[], rfl, rfl⟩

end Execution

namespace Session

def verdict {α : Type} (a : α) : Execution.Ending → Option (Except SessionError α)
  | .halted => some (.ok a)
  | .failed e => some (.error (.runtime e))
  | .unfinished => none

theorem verdict_ne_none_iff {α : Type} (a : α) (e : Execution.Ending) :
    verdict a e ≠ none ↔ e ≠ .unfinished := by
  cases e <;> simp [verdict]

omit [ListedSource σ] in
theorem run_of_parse [InstructionSet ι] {source : List Char} {p : Program ι}
    (hp : Program.parse source = .ok p) (fuel : Nat) (emit : Word → σ → σ) (m : μ) (s : σ) :
    let r := (Execution.start p m s).run emit fuel
    run fuel emit source m s = ⟨verdict () r.1, r.2.machine, r.2.input⟩ := by
  intro r
  simp only [run, hp]
  match hr : (Execution.start p m s).run emit fuel with
  | (.halted, x) => simp [r, hr, verdict]
  | (.failed e, x) => simp [r, hr, verdict]
  | (.unfinished, x) => simp [r, hr, verdict]

end Session
end AbstractMachines
