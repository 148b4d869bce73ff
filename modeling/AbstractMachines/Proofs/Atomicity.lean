import AbstractMachines.Proofs.Laws

/-!
# Operations that fail do nothing

An instruction that fails leaves the machine and the unread input as they were.
A session is a sequence of operations on one machine, and the operations that
fail before they have an effect, which are the lines that fail in any way and
the programs that do not parse, might as well not have been asked for: without
them every other operation gives the same answer, and the machine ends up the
same.

An operation reads from the input that the operations of a session share, or
from a list of its own. A run or a trace carries the number of instructions it
may execute, and its answer says when that was not enough.
-/

namespace AbstractMachines
namespace Session

inductive Feed where
  | shared
  | own (values : List Word)

namespace Feed

def take : Feed → List Word → List Word
  | shared, unread => unread
  | own values, _ => values

def putBack : Feed → List Word → List Word → List Word
  | shared, _, rest => rest
  | own _, unread, _ => unread

theorem putBack_take (feed : Feed) (unread : List Word) :
    feed.putBack unread (feed.take unread) = unread := by
  cases feed <;> rfl

end Feed

inductive Operation where
  | line (text : List Char) (feed : Feed)
  | run (fuel : Nat) (source : List Char) (feed : Feed)
  | trace (fuel : Nat) (source : List Char) (input : List Word) (sink : Sink)
  | reset
  | status

inductive Answer where
  | line (result : Except SessionError (Option Word)) (unread : List Word)
  | run (result : Option (Except SessionError Unit)) (outputs unread : List Word)
  | trace (result : Option (Except SessionError (List Word))) (sink : Sink)
  | reset
  | status (text : String)

def Answer.rejected : Answer → Bool
  | line (.error _) _ => true
  | run (some (.error (.program _))) _ _ => true
  | trace (some (.error (.program _))) _ => true
  | _ => false

structure Desk (μ : Type) where
  machine : μ
  unread : List Word

variable {μ ι : Type} [InstructionSet ι] [Model μ ι]

def perform : Operation → Desk μ → Answer × Desk μ
  | .line text feed, d =>
    let r := executeLine text d.machine (feed.take d.unread)
    (.line r.result r.input, ⟨r.machine, feed.putBack d.unread r.input⟩)
  | .run fuel source feed, d =>
    let r := run fuel Tape.emit source d.machine ⟨feed.take d.unread, #[]⟩
    (.run r.result r.input.written.toList r.input.unread,
      ⟨r.machine, feed.putBack d.unread r.input.unread⟩)
  | .trace fuel source input sink, d =>
    let r := trace fuel source d.machine input sink
    (.trace r.result r.sink, ⟨r.machine, d.unread⟩)
  | .reset, d => (.reset, ⟨Model.initial, d.unread⟩)
  | .status, d => (.status (Model.status d.machine), d)

def performAll : List Operation → Desk μ → List (Operation × Answer) × Desk μ
  | [], d => ([], d)
  | op :: ops, d =>
    let first := perform op d
    let rest := performAll ops first.2
    ((op, first.1) :: rest.1, rest.2)

theorem executeLine_error {σ : Type} [Source σ] [LawfulSource σ] [ReadingSet ι] [LawfulModel μ]
    {text : List Char} {m : μ} {s : σ} {e : SessionError}
    (h : (executeLine text m s).result = .error e) :
    executeLine text m s = ⟨.error e, m, s⟩ := by
  unfold executeLine at h ⊢
  cases hp : InstructionSet.parse (ι := ι) (Text.trim text) with
  | error e' =>
    simp only [hp, Except.error.injEq] at h ⊢
    rw [h]
  | ok i =>
    match hx : execute i m s with
    | ⟨.ok o, n, t⟩ => simp [hp, hx] at h
    | ⟨.error e', n, t⟩ =>
      have he := (execute_error (by rw [hx])).1
      simp only [hp, hx, Except.error.injEq] at h
      simp only [he, h]

theorem run_program_error {σ : Type} [Source σ] {fuel : Nat} {emit : Word → σ → σ}
    {source : List Char} {m : μ} {s : σ} {e : ProgramError}
    (h : (run fuel emit source m s).result = some (.error (.program e))) :
    run fuel emit source m s = ⟨some (.error (.program e)), m, s⟩ := by
  unfold run at h ⊢
  cases hp : Program.parse (ι := ι) source with
  | error e' =>
    simp only [hp, Option.some.injEq, Except.error.injEq, SessionError.program.injEq] at h ⊢
    rw [h]
  | ok program =>
    match hx : (Execution.start program m s).run emit fuel with
    | (.halted, x) => simp [hp, hx] at h
    | (.failed e', x) => simp [hp, hx] at h
    | (.unfinished, x) => simp [hp, hx] at h

omit [InstructionSet ι] in
theorem traceFrom_ne_program (e : ProgramError) (fuel : Nat) (x : Execution μ ι Backlog)
    (outputs : Array Word) (sink : Sink) :
    (traceFrom fuel x outputs sink).result ≠ some (.error (.program e)) := by
  induction fuel generalizing x outputs sink with
  | zero => simp [traceFrom]
  | succ fuel ih =>
    rw [traceFrom]
    split
    · simp
    · simp
    · simp only
      split
      · exact ih _ _ _
      · simp

theorem trace_program_error {fuel : Nat} {source : List Char} {m : μ} {input : List Word}
    {sink : Sink} {e : ProgramError}
    (h : (trace fuel source m input sink).result = some (.error (.program e))) :
    trace fuel source m input sink = ⟨some (.error (.program e)), m, sink⟩ := by
  unfold trace at h ⊢
  cases hp : Program.parse (ι := ι) source with
  | error e' =>
    simp only [hp, Option.some.injEq, Except.error.injEq, SessionError.program.injEq] at h ⊢
    rw [h]
  | ok program =>
    simp only [hp, traceProgram] at h
    split at h
    · exact absurd h (traceFrom_ne_program e _ _ _ _)
    · simp at h

variable [ReadingSet ι] [LawfulModel μ]

theorem perform_rejected {op : Operation} {d : Desk μ}
    (h : (perform op d).1.rejected = true) : (perform op d).2 = d := by
  cases op with
  | line text feed =>
    cases hr : (executeLine text d.machine (feed.take d.unread)).result with
    | ok o => simp [perform, hr, Answer.rejected] at h
    | error e => simp [perform, executeLine_error hr, Feed.putBack_take]
  | run fuel source feed =>
    simp only [perform, Answer.rejected] at h
    split at h
    · simp_all
    · next e _ hr =>
      simp only [Answer.run.injEq] at hr
      simp [perform, run_program_error hr.1, Feed.putBack_take]
    · simp_all
    · simp at h
  | trace fuel source input sink =>
    simp only [perform, Answer.rejected] at h
    split at h
    · simp_all
    · simp_all
    · next e hr =>
      simp only [Answer.trace.injEq] at hr
      simp [perform, trace_program_error hr.1]
    · simp at h
  | reset => simp [perform, Answer.rejected] at h
  | status => rfl

theorem performAll_accepted (ops : List Operation) (d : Desk μ) :
    performAll (((performAll ops d).1.filter fun p => !p.2.rejected).map (·.1)) d =
      ((performAll ops d).1.filter fun p => !p.2.rejected, (performAll ops d).2) := by
  induction ops generalizing d with
  | nil => rfl
  | cons op ops ih =>
    cases hr : (perform op d).1.rejected with
    | true =>
      have hd := perform_rejected hr
      simpa [performAll, hr, hd] using ih d
    | false => simp [performAll, hr, ih]

end Session

/-- A failed instruction has no effect, and a session without its rejected
operations goes as it went with them. -/
theorem failed_operations_leave_no_trace (kind : Kind) :
    (∀ (i : kind.Instruction) (m : kind.Machine) (input : List Word) (e : RuntimeError),
      (execute i m input).outcome = .error e →
        (execute i m input).machine = m ∧ (execute i m input).input = input ∧
        e.counter = Model.counter m) ∧
    ∀ (ops : List Session.Operation) (d : Session.Desk kind.Machine),
      let accepted := (Session.performAll ops d).1.filter fun p => !p.2.rejected
      Session.performAll (accepted.map (·.1)) d = (accepted, (Session.performAll ops d).2) := by
  constructor
  · intro i m input e h
    obtain ⟨hx, hc⟩ := execute_error h
    exact ⟨by rw [hx], by rw [hx], hc⟩
  · exact Session.performAll_accepted

def interruptedSession : List Session.Operation :=
  [.line "LIT 5".toList .shared, .line "STORE(global,1)".toList .shared,
    .run 9 "PUSH\nJMP x".toList .shared, .line " PUSH ".toList .shared, .line "ADD".toList .shared]

theorem interruptedSession_accepted :
    let d : Session.Desk Kind.am1.Machine := ⟨Model.initial, [8]⟩
    let accepted := (Session.performAll interruptedSession d).1.filter fun p => !p.2.rejected
    let r := execute (AM1.Instruction.ret 3) d.machine d.unread
    r.outcome = .error (.missingAddress 0 (-1)) ∧ r.machine = d.machine ∧ r.input = d.unread ∧
    (Session.performAll interruptedSession d).1.map (·.2.rejected) =
      [false, true, true, false, true] ∧
    Session.performAll (accepted.map (·.1)) d =
      (accepted, (Session.performAll interruptedSession d).2) := by
  intro d accepted r
  obtain ⟨hfailed, hsession⟩ := failed_operations_leave_no_trace .am1
  have hret : r.outcome = .error (.missingAddress 0 (-1)) := rfl
  obtain ⟨hmachine, hinput, -⟩ := hfailed _ _ _ _ hret
  refine ⟨hret, hmachine, hinput, ?_, hsession interruptedSession d⟩
  decide +kernel

end AbstractMachines
