import AbstractMachines.Proofs.Storage
import AbstractMachines.Proofs.Tapes

/-!
# Programs on a machine that has been used

A run keeps the operand stack and the memory that it finds. An AM0 program that
needs nothing but what it puts there itself does not notice: it goes through the
same steps as on a fresh machine, on top of the words left on the stack and in
front of the cells left in memory. Only an instruction that asks for more than
the program has put there, and so fails on the fresh machine with an underflow
or a missing address, can tell the two apart.
-/

namespace AbstractMachines

def RuntimeError.lacking : RuntimeError → Bool
  | stackUnderflow _ _ _ | missingAddress _ _ => true
  | inputExhausted _ | divisionByZero _ | stackOverflow _ _ => false

namespace Core

def atop (c : Core) (rest : List Word) : Core := { c with stack := c.stack ++ rest }

/-- Unless it runs out of words, `f` does not see what lies below its own. -/
def Framed (f : Core → Except RuntimeError Core) : Prop :=
  ∀ (c : Core) (rest : List Word),
    f (c.atop rest) = (f c).map (·.atop rest) ∨ ∃ needed, f c = .error (c.underflow needed)

theorem operate_framed (op : Operator) : Framed (operate op) := by
  rintro ⟨counter, stack⟩ rest
  match stack with
  | [] => exact Or.inr ⟨2, rfl⟩
  | [_] => exact Or.inr ⟨2, rfl⟩
  | b :: a :: below =>
    left
    simp only [operate, atop, List.cons_append]
    cases op.eval? a b <;> rfl

theorem branch_framed (n : Word) : Framed (branch n) := by
  rintro ⟨counter, stack⟩ rest
  match stack with
  | [] => exact Or.inr ⟨1, rfl⟩
  | v :: below =>
    left
    simp only [branch, atop, List.cons_append, Except.map]
    split <;> rfl

end Core

namespace AM0
namespace Memory

def overlay (lower upper : Memory) : Memory :=
  upper.cells.foldr (fun p m => m.insert p.1 p.2) lower

theorem get?_overlay (lower upper : Memory) (a : Word) :
    (lower.overlay upper).get? a = (upper.get? a).or (lower.get? a) := by
  change (upper.cells.foldr (fun p m => m.insert p.1 p.2) lower).get? a =
    (upper.cells.lookup a).or (lower.get? a)
  induction upper.cells with
  | nil => rfl
  | cons p rest ih =>
    obtain ⟨b, w⟩ := p
    rw [List.foldr_cons, get?_insert, ih, List.lookup_cons]
    by_cases hab : a = b
    · simp [hab]
    · have hbeq : (a == b) = false := beq_eq_false_iff_ne.2 hab
      simp [hab, hbeq]

theorem insert_overlay (lower upper : Memory) (a v : Word) :
    (lower.overlay upper).insert a v = lower.overlay (upper.insert a v) := by
  apply ext_get?
  intro b
  simp only [get?_insert, get?_overlay]
  split <;> rfl

end Memory

namespace Machine

def atop (m rest : Machine) : Machine :=
  ⟨m.toCore.atop rest.stack, rest.memory.overlay m.memory⟩

variable (m rest : Machine)

theorem onCore_atop {f : Core → Except RuntimeError Core} (hf : Core.Framed f) :
    Action.Alike (fun m n => n = m.atop rest) (onCore f m) (onCore f (m.atop rest)) ∨
    ∃ e, onCore f m = .fail m e ∧ e.lacking = true := by
  rcases hf m.toCore rest.stack with h | ⟨needed, h⟩
  · exact .inl (onCore_alike (·.atop rest.stack) rfl h fun _ => rfl)
  · exact .inr ⟨_, onCore_of_error h, rfl⟩

theorem access_atop (kind : Access) (a : Word) :
    Action.Alike (fun m n => n = m.atop rest) (m.access kind a) ((m.atop rest).access kind a) ∨
    ∃ e, m.access kind a = .fail m e ∧ e.lacking = true := by
  have hget : (m.atop rest).memory.get? a = (m.memory.get? a).or (rest.memory.get? a) :=
    Memory.get?_overlay rest.memory m.memory a
  have hput : ∀ v, (m.atop rest).memory.insert a v = rest.memory.overlay (m.memory.insert a v) :=
    Memory.insert_overlay rest.memory m.memory a
  cases kind with
  | load =>
    cases h : m.memory.get? a with
    | none => exact Or.inr ⟨.missingAddress m.counter a, by simp [access, h, missing], rfl⟩
    | some v =>
      left
      simp only [access, hget, h, Option.some_or]
      exact .done none rfl
  | store =>
    cases h : m.stack with
    | nil => exact Or.inr ⟨m.underflow 1, by simp [access, h], rfl⟩
    | cons v below =>
      left
      have hstack : (m.atop rest).stack = v :: (below ++ rest.stack) := by
        simp [atop, Core.atop, h]
      simp only [access, h, hstack, hput]
      exact .done none rfl
  | write =>
    cases h : m.memory.get? a with
    | none => exact Or.inr ⟨.missingAddress m.counter a, by simp [access, h, missing], rfl⟩
    | some v =>
      left
      simp only [access, hget, h, Option.some_or]
      exact .done (some v) rfl
  | read =>
    -- Reading and storing need no cell to be there: either makes one in the upper memory.
    left
    refine .read a rfl fun v => ?_
    change Machine.deliver a v (m.atop rest) = (Machine.deliver a v m).atop rest
    rw [deliver, hput]
    rfl

theorem act_atop (i : Instruction) :
    Action.Alike (fun m n => n = m.atop rest) (m.act i) ((m.atop rest).act i) ∨
    ∃ e, m.act i = .fail m e ∧ e.lacking = true := by
  obtain ⟨opcode, payload⟩ := i
  cases opcode with
  | operator op => exact onCore_atop m rest (Core.operate_framed op)
  | access kind => exact access_atop m rest kind payload
  | lit => exact Or.inl (.done none rfl)
  | jmp => exact Or.inl (.done none rfl)
  | jmc => exact onCore_atop m rest (Core.branch_framed payload)

end Machine

open Execution

theorem history_atop {σ : Type} [Source σ] (p : Program Instruction) (rest : Machine) (s : σ)
    {k : Nat}
    (h : ∀ e, (start p (Model.initial : Machine) s).ending k = .failed e → e.lacking = false) :
    let fresh := start p (Model.initial : Machine) s
    let used := start p rest s
    used.history k = fresh.history k ∧ (used.after k).input = (fresh.after k).input ∧
      (used.after k).machine = (fresh.after k).machine.atop rest := by
  intro fresh used
  have hlink : Linked id (fun m n => n = m.atop rest) Eq fresh used :=
    ⟨by simp [fresh, used, start, Program.map], rfl, rfl, rfl⟩
  have hact : ∀ i ∈ fresh.program.code, ∀ m n : Machine, n = m.atop rest →
      Action.Alike (fun m n => n = m.atop rest) (m.act i) (n.act (id i)) ∨
      ∃ m' e, m.act i = .fail m' e ∧ e.lacking = true := by
    rintro i - m n rfl
    rcases m.act_atop rest i with h | ⟨e, ha, he⟩
    · exact Or.inl h
    · exact Or.inr ⟨m, e, ha, he⟩
  obtain ⟨hh, hl⟩ := history_linked (by rintro m n rfl; rfl) sameWords_eq k hlink hact
    (fun i e hmem => by simp [h e (ending_eq_failed_iff.2 ⟨i, hmem⟩)])
  exact ⟨by simpa using hh, hl.input.symm, hl.machine⟩

/-- What is on the machine when a program starts makes no difference to a run
whose instructions succeed, nor to one that halts, divides by zero or runs out
of input. -/
theorem leftovers_do_not_matter (p : Program Instruction) (rest : Machine) (xs : List Word)
    (k : Nat) :
    let fresh := start p (Model.initial : Machine) xs
    let used := start p rest xs
    ((∀ q ∈ fresh.history k, q.2.isOk = true) → ∀ j ≤ k,
      used.history j = fresh.history j ∧ (used.after j).input = (fresh.after j).input ∧
      (used.after j).machine = (fresh.after j).machine.atop rest) ∧
    let freshRun := (start p (Model.initial : Machine) (Tape.mk xs #[])).run Tape.emit k
    let usedRun := (start p rest (Tape.mk xs #[])).run Tape.emit k
    (freshRun.1 = .halted ∨ (∃ c, freshRun.1 = .failed (.divisionByZero c)) ∨
        (∃ c, freshRun.1 = .failed (.inputExhausted c))) →
      usedRun.1 = freshRun.1 ∧ usedRun.2.input = freshRun.2.input := by
  intro fresh used
  constructor
  · intro hok j hj
    refine history_atop p rest xs fun e he => ?_
    have hend : fresh.ending k = .failed e := (ending_mono hj (by simp [he, fresh])).trans he
    obtain ⟨i, hmem⟩ := ending_eq_failed_iff.1 hend
    simpa [Except.isOk, Except.toBool] using hok _ hmem
  · intro freshRun usedRun hend
    have hfresh : freshRun = _ := fresh.run_onTape k #[]
    have hused : usedRun = _ := used.run_onTape k #[]
    rw [hfresh] at hend
    obtain ⟨hh, hi, -⟩ := history_atop p rest xs (k := k) fun e he => by
      rcases hend with h | ⟨c, h⟩ | ⟨c, h⟩
      · simp [he, fresh] at h
      · simp only [he, fresh, Ending.failed.injEq] at h
        rw [h]
        rfl
      · simp only [he, fresh, Ending.failed.injEq] at h
        rw [h]
        rfl
    have hout : used.outputs k = fresh.outputs k := by rw [outputs, outputs, hh]
    have hinput : (used.after k).input = (fresh.after k).input := hi
    rw [hfresh, hused]
    constructor
    · rw [ending_eq_endingOf, ending_eq_endingOf, hh]
    · simp only [onTape, hout, hinput]

def quotient : Program Instruction :=
  ⟨#[⟨.access .read, 1⟩, ⟨.lit, 12⟩, ⟨.access .load, 1⟩, ⟨.operator .div, 0⟩, ⟨.access .store, 2⟩,
    ⟨.access .write, 2⟩]⟩

def usedMachine : Machine := ⟨⟨9, [7, 8]⟩, .ofList [(1, 5), (3, 6)]⟩

theorem quotient_on_usedMachine :
    ((start quotient usedMachine [(4 : Word)]).after 6).machine =
      ⟨⟨6, [7, 8]⟩, .ofList [(1, 4), (2, 3), (3, 6)]⟩ ∧
    ((start quotient usedMachine (Tape.mk [4] #[])).run Tape.emit 7).1 = .halted ∧
    ((start quotient usedMachine (Tape.mk [4] #[])).run Tape.emit 7).2.input = ⟨[], #[3]⟩ ∧
    ((start quotient usedMachine (Tape.mk [0] #[])).run Tape.emit 7).1 =
      .failed (.divisionByZero 3) := by
  have hfour : (start quotient (Model.initial : Machine) (Tape.mk [4] #[])).run Tape.emit 7 =
      (.halted, ⟨quotient, ⟨⟨6, []⟩, .ofList [(1, 4), (2, 3)]⟩, ⟨[], #[3]⟩, true⟩) := rfl
  have hzero : ((start quotient (Model.initial : Machine) (Tape.mk [0] #[])).run Tape.emit 7).1 =
      .failed (.divisionByZero 3) := rfl
  obtain ⟨hsteps, hrun⟩ := leftovers_do_not_matter quotient usedMachine [4] 7
  obtain ⟨hend, hinput⟩ := hrun (Or.inl (by rw [hfour]))
  obtain ⟨hfail, -⟩ := (leftovers_do_not_matter quotient usedMachine [0] 7).2
    (Or.inr (Or.inl ⟨3, hzero⟩))
  obtain ⟨-, -, hmachine⟩ := hsteps (by decide) 6 (by decide)
  refine ⟨hmachine.trans ?_, hend.trans ?_, hinput.trans ?_, hfail.trans hzero⟩
  · rfl
  · rw [hfour]
  · rw [hfour]

end AM0
end AbstractMachines
