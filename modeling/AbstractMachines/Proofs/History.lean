import AbstractMachines.Proofs.Laws

/-!
# Steps of an execution, counted

`after k` is the execution after `k` steps and `history k` lists the
instructions those steps execute, each with its outcome. A step of an execution
that is over executes nothing, so a history stops growing at the end: after the
first failure, or once the counter has left the program.

A step does one of three things, and `step_of_over`, `step_of_ok` and
`step_of_error` say which. Everything below is derived from these.
-/

namespace AbstractMachines
namespace Execution

section

variable {μ ι σ : Type} [Model μ ι] [Source σ]

def pending? (x : Execution μ ι σ) : Option ι :=
  if x.finished then none else x.program.fetch (Model.counter x.machine)

def after : Nat → Execution μ ι σ → Execution μ ι σ
  | 0, x => x
  | k + 1, x => after k x.step.2

def history : Nat → Execution μ ι σ → List (ι × Outcome)
  | 0, _ => []
  | k + 1, x =>
    match x.pending?, x.step with
    | some i, (some o, y) => (i, o) :: history k y
    | _, _ => []

def ending : Nat → Execution μ ι σ → Ending
  | 0, _ => .unfinished
  | k + 1, x =>
    match x.step with
    | (none, _) => .halted
    | (some (.error e), _) => .failed e
    | (some (.ok _), y) => ending k y

theorem step_of_over {x : Execution μ ι σ} (h : x.pending? = none) :
    x.step = (none, ⟨x.program, x.machine, x.input, true⟩) := by
  obtain ⟨program, m, s, finished⟩ := x
  cases finished with
  | true => rfl
  | false =>
    have hf : program.fetch (Model.counter m) = none := by simpa [pending?] using h
    simp only [step, hf]

theorem step_of_ok {x : Execution μ ι σ} {i : ι} {o : Option Word} {n : μ} {t : σ}
    (h : x.pending? = some i) (he : execute i x.machine x.input = ⟨.ok o, n, t⟩) :
    x.step = (some (.ok o), ⟨x.program, n, t, false⟩) := by
  obtain ⟨program, m, s, finished⟩ := x
  cases finished with
  | true => simp [pending?] at h
  | false =>
    have hf : program.fetch (Model.counter m) = some i := by simpa [pending?] using h
    simp only at he
    simp only [step, hf, he]

theorem step_of_error {x : Execution μ ι σ} {i : ι} {e : RuntimeError} {n : μ} {t : σ}
    (h : x.pending? = some i) (he : execute i x.machine x.input = ⟨.error e, n, t⟩) :
    x.step = (some (.error e), ⟨x.program, n, t, true⟩) := by
  obtain ⟨program, m, s, finished⟩ := x
  cases finished with
  | true => simp [pending?] at h
  | false =>
    have hf : program.fetch (Model.counter m) = some i := by simpa [pending?] using h
    simp only at he
    simp only [step, hf, he]

omit [Source σ] in
theorem pending?_of_finished {x : Execution μ ι σ} (h : x.finished = true) :
    x.pending? = none := by
  simp [pending?, h]

theorem next_cases (x : Execution μ ι σ) :
    x.pending? = none ∨
    (∃ i o n t, x.pending? = some i ∧ execute i x.machine x.input = ⟨.ok o, n, t⟩) ∨
    (∃ i e n t, x.pending? = some i ∧ execute i x.machine x.input = ⟨.error e, n, t⟩) := by
  cases hp : x.pending? with
  | none => exact Or.inl rfl
  | some i =>
    match he : execute i x.machine x.input with
    | ⟨.ok o, n, t⟩ => exact Or.inr (Or.inl ⟨i, o, n, t, rfl, he⟩)
    | ⟨.error e, n, t⟩ => exact Or.inr (Or.inr ⟨i, e, n, t, rfl, he⟩)

theorem history_of_over {x : Execution μ ι σ} (h : x.pending? = none) (k : Nat) :
    history k x = [] := by
  cases k with
  | zero => rfl
  | succ k => simp only [history, h]

theorem history_succ_of_ok {x : Execution μ ι σ} {i : ι} {o : Option Word} {n : μ} {t : σ}
    (h : x.pending? = some i) (he : execute i x.machine x.input = ⟨.ok o, n, t⟩) (k : Nat) :
    history (k + 1) x = (i, .ok o) :: history k ⟨x.program, n, t, false⟩ := by
  simp only [history, h, step_of_ok h he]

theorem history_succ_of_error {x : Execution μ ι σ} {i : ι} {e : RuntimeError} {n : μ} {t : σ}
    (h : x.pending? = some i) (he : execute i x.machine x.input = ⟨.error e, n, t⟩) (k : Nat) :
    history (k + 1) x = [(i, .error e)] := by
  simp only [history, h, step_of_error h he, List.cons.injEq, true_and]
  exact history_of_over (pending?_of_finished rfl) k

theorem step_of_finished {x : Execution μ ι σ} (h : x.finished = true) : x.step = (none, x) := by
  rw [step_of_over (pending?_of_finished h), ← h]

theorem after_of_still {x : Execution μ ι σ} (h : x.step.2 = x) (k : Nat) : after k x = x := by
  induction k with
  | zero => rfl
  | succ k ih => rw [after, h, ih]

theorem after_of_finished {x : Execution μ ι σ} (h : x.finished = true) (k : Nat) :
    after k x = x := by
  apply after_of_still
  rw [step_of_finished h]

theorem after_succ_of_over {x : Execution μ ι σ} (h : x.pending? = none) (k : Nat) :
    after (k + 1) x = ⟨x.program, x.machine, x.input, true⟩ := by
  rw [after, step_of_over h]
  exact after_of_finished rfl k

theorem after_succ_of_ok {x : Execution μ ι σ} {i : ι} {o : Option Word} {n : μ} {t : σ}
    (h : x.pending? = some i) (he : execute i x.machine x.input = ⟨.ok o, n, t⟩) (k : Nat) :
    after (k + 1) x = after k ⟨x.program, n, t, false⟩ := by
  rw [after, step_of_ok h he]

theorem after_succ_of_error {x : Execution μ ι σ} {i : ι} {e : RuntimeError} {n : μ} {t : σ}
    (h : x.pending? = some i) (he : execute i x.machine x.input = ⟨.error e, n, t⟩) (k : Nat) :
    after (k + 1) x = ⟨x.program, n, t, true⟩ := by
  rw [after, step_of_error h he]
  exact after_of_finished rfl k

theorem ending_succ_of_over {x : Execution μ ι σ} (h : x.pending? = none) (k : Nat) :
    ending (k + 1) x = .halted := by
  simp only [ending, step_of_over h]

theorem ending_succ_of_ok {x : Execution μ ι σ} {i : ι} {o : Option Word} {n : μ} {t : σ}
    (h : x.pending? = some i) (he : execute i x.machine x.input = ⟨.ok o, n, t⟩) (k : Nat) :
    ending (k + 1) x = ending k ⟨x.program, n, t, false⟩ := by
  simp only [ending, step_of_ok h he]

theorem ending_succ_of_error {x : Execution μ ι σ} {i : ι} {e : RuntimeError} {n : μ} {t : σ}
    (h : x.pending? = some i) (he : execute i x.machine x.input = ⟨.error e, n, t⟩) (k : Nat) :
    ending (k + 1) x = .failed e := by
  simp only [ending, step_of_error h he]

def endingOf : Nat → List Outcome → Ending
  | 0, _ => .unfinished
  | _ + 1, [] => .halted
  | _ + 1, .error e :: _ => .failed e
  | k + 1, .ok _ :: rest => endingOf k rest

theorem ending_eq_endingOf (k : Nat) (x : Execution μ ι σ) :
    ending k x = endingOf k ((history k x).map (·.2)) := by
  induction k generalizing x with
  | zero => rfl
  | succ k ih =>
    rcases next_cases x with h | ⟨i, o, n, t, h, he⟩ | ⟨i, e, n, t, h, he⟩
    · rw [ending_succ_of_over h, history_of_over h]
      rfl
    · rw [ending_succ_of_ok h he, history_succ_of_ok h he, ih]
      rfl
    · rw [ending_succ_of_error h he, history_succ_of_error h he]
      rfl

theorem ending_eq_failed_iff {k : Nat} {x : Execution μ ι σ} {e : RuntimeError} :
    ending k x = .failed e ↔ ∃ i, (i, .error e) ∈ history k x := by
  induction k generalizing x with
  | zero => simp [ending, history]
  | succ k ih =>
    rcases next_cases x with h | ⟨i, o, n, t, h, he⟩ | ⟨i, e', n, t, h, he⟩
    · simp [ending_succ_of_over h, history_of_over h]
    · simp [ending_succ_of_ok h he, history_succ_of_ok h he, ih]
    · simp [ending_succ_of_error h he, history_succ_of_error h he, eq_comm]

theorem ending_mono {j k : Nat} (hjk : j ≤ k) {x : Execution μ ι σ}
    (hend : ending j x ≠ .unfinished) : ending k x = ending j x := by
  induction j generalizing k x with
  | zero => exact absurd rfl hend
  | succ j ih =>
    obtain ⟨k, rfl⟩ := Nat.exists_eq_add_of_le' (Nat.le_trans (Nat.le_add_left 1 j) hjk)
    rcases next_cases x with h | ⟨i, o, n, t, h, he⟩ | ⟨i, e, n, t, h, he⟩
    · rw [ending_succ_of_over h, ending_succ_of_over h]
    · rw [ending_succ_of_ok h he] at hend ⊢
      rw [ending_succ_of_ok h he]
      exact ih (Nat.le_of_succ_le_succ hjk) hend
    · rw [ending_succ_of_error h he, ending_succ_of_error h he]

def executed (k : Nat) (x : Execution μ ι σ) : List ι :=
  (history k x).filterMap fun
    | (i, .ok _) => some i
    | (_, .error _) => none

def outputs (k : Nat) (x : Execution μ ι σ) : List Word :=
  (history k x).filterMap fun
    | (_, .ok o) => o
    | (_, .error _) => none

def reads [ReadingSet ι] (k : Nat) (x : Execution μ ι σ) : Nat :=
  (executed k x).countP ReadingSet.isRead

theorem executed_of_over {x : Execution μ ι σ} (h : x.pending? = none) (k : Nat) :
    executed k x = [] := by
  simp [executed, history_of_over h k]

theorem executed_succ_of_ok {x : Execution μ ι σ} {i : ι} {o : Option Word} {n : μ} {t : σ}
    (h : x.pending? = some i) (he : execute i x.machine x.input = ⟨.ok o, n, t⟩) (k : Nat) :
    executed (k + 1) x = i :: executed k ⟨x.program, n, t, false⟩ := by
  simp [executed, history_succ_of_ok h he k]

theorem executed_of_error {x : Execution μ ι σ} {i : ι} {e : RuntimeError} {n : μ} {t : σ}
    (h : x.pending? = some i) (he : execute i x.machine x.input = ⟨.error e, n, t⟩) (k : Nat) :
    executed k x = [] := by
  cases k with
  | zero => rfl
  | succ k => simp [executed, history_succ_of_error h he k]

theorem outputs_of_over {x : Execution μ ι σ} (h : x.pending? = none) (k : Nat) :
    outputs k x = [] := by
  simp [outputs, history_of_over h k]

theorem outputs_succ_of_ok {x : Execution μ ι σ} {i : ι} {o : Option Word} {n : μ} {t : σ}
    (h : x.pending? = some i) (he : execute i x.machine x.input = ⟨.ok o, n, t⟩) (k : Nat) :
    outputs (k + 1) x = o.toList ++ outputs k ⟨x.program, n, t, false⟩ := by
  cases o <;> simp [outputs, history_succ_of_ok h he k]

theorem outputs_of_error {x : Execution μ ι σ} {i : ι} {e : RuntimeError} {n : μ} {t : σ}
    (h : x.pending? = some i) (he : execute i x.machine x.input = ⟨.error e, n, t⟩) (k : Nat) :
    outputs k x = [] := by
  cases k with
  | zero => rfl
  | succ k => simp [outputs, history_succ_of_error h he k]

theorem reads_of_over [ReadingSet ι] {x : Execution μ ι σ} (h : x.pending? = none) (k : Nat) :
    reads k x = 0 := by
  simp [reads, executed_of_over h k]

theorem reads_succ_of_ok [ReadingSet ι] {x : Execution μ ι σ} {i : ι} {o : Option Word} {n : μ}
    {t : σ} (h : x.pending? = some i)
    (he : execute i x.machine x.input = ⟨.ok o, n, t⟩) (k : Nat) :
    reads (k + 1) x =
      (if ReadingSet.isRead i then 1 else 0) + reads k ⟨x.program, n, t, false⟩ := by
  simp [reads, executed_succ_of_ok h he k, List.countP_cons, Nat.add_comm]

theorem reads_of_error [ReadingSet ι] {x : Execution μ ι σ} {i : ι} {e : RuntimeError} {n : μ}
    {t : σ} (h : x.pending? = some i)
    (he : execute i x.machine x.input = ⟨.error e, n, t⟩) (k : Nat) : reads k x = 0 := by
  simp [reads, executed_of_error h he k]

end
end Execution
end AbstractMachines
