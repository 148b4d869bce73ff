import AbstractMachines.Proofs.Simulation
import AbstractMachines.Proofs.Storage

/-!
# Programs for the sparse memory on the runtime stack

An AM0 program becomes an AM1 program when each cell is taken for the global
slot with the same address. If the addresses of the program lie in `1..cells`
and the runtime stack has at least that many slots, the two run in lock step.
The runtime stack has words where the memory has no cells, so this holds until
the AM0 program asks for a cell that does not exist.
-/

namespace AbstractMachines
namespace Embedding

def instruction : AM0.Instruction → AM1.Instruction
  | ⟨.operator op, _⟩ => .operator op
  | ⟨.access kind, a⟩ => .direct kind ⟨.globalBase, a⟩
  | ⟨.lit, n⟩ => .lit n
  | ⟨.jmp, n⟩ => .jmp n
  | ⟨.jmc, n⟩ => .jmc n

def Within (cells : Nat) (i : AM0.Instruction) : Prop :=
  ∀ kind, i.opcode = .access kind → 1 ≤ i.payload.toInt ∧ i.payload.toInt ≤ cells

structure Represents (cells : Nat) (m : AM0.Machine) (n : AM1.Machine) : Prop where
  counter : n.counter = m.counter
  stack : n.stack = m.stack
  room : cells ≤ n.runtime.size
  cell : ∀ a v, m.memory.get? a = some v → n.slot? a = some v

variable {cells : Nat} {m : AM0.Machine} {n : AM1.Machine}

theorem Represents.core (h : Represents cells m n) : n.toCore = m.toCore := by
  obtain ⟨⟨c, st⟩, runtime, reference⟩ := n
  obtain ⟨⟨c', st'⟩, memory⟩ := m
  obtain ⟨rfl, rfl, -, -⟩ := h
  rfl

theorem Represents.withCore (h : Represents cells m n) (c : Core) :
    Represents cells { m with toCore := c } { n with toCore := c } :=
  ⟨rfl, rfl, h.room, h.cell⟩

theorem Represents.slot (h : Represents cells m n) {a : Word}
    (ha : 1 ≤ a.toInt ∧ a.toInt ≤ cells) : (n.slot? a).isSome := by
  have hroom := h.room
  exact AM1.Machine.slot?_isSome.2 ⟨ha.1, by omega⟩

theorem Represents.insert (h : Represents cells m n) {a : Word}
    (ha : 1 ≤ a.toInt ∧ a.toInt ≤ cells) (v : Word) :
    Represents cells { m with memory := m.memory.insert a v } (n.assign a v) where
  counter := h.counter
  stack := h.stack
  room := by simpa using h.room
  cell b w hb := by
    rw [AM0.Memory.get?_insert] at hb
    split at hb
    · next hba =>
      subst hba
      rw [AM1.Machine.slot?_assign_self (h.slot ha), ← hb]
    · next hba => rw [AM1.Machine.slot?_assign_of_ne ha.1 hba, h.cell b w hb]

theorem Represents.onCore (h : Represents cells m n) (f : Core → Except RuntimeError Core) :
    Action.Alike (Represents cells) (onCore f m) (onCore f n) := by
  refine onCore_alike id h ?_ h.withCore
  rw [show HasCore.core n = HasCore.core m from h.core]
  cases f (HasCore.core m) <;> rfl

theorem access_alike (h : Represents cells m n) {a : Word}
    (ha : 1 ≤ a.toInt ∧ a.toInt ≤ cells) (kind : Access) :
    Action.Alike (Represents cells) (m.access kind a) (n.access kind a) ∨
    m.access kind a = m.missing a := by
  obtain ⟨w, hslot⟩ := Option.isSome_iff_exists.1 (h.slot ha)
  obtain ⟨core, runtime, reference⟩ := n
  obtain rfl : core = m.toCore := h.core
  cases kind with
  | load =>
    cases hm : m.memory.get? a with
    | none => simp [AM0.Machine.access, hm]
    | some v =>
      left
      simp only [AM0.Machine.access, AM1.Machine.access, hm, h.cell a v hm]
      exact .done none (h.withCore _)
  | store =>
    left
    simp only [AM0.Machine.access, AM1.Machine.access, hslot]
    cases m.stack with
    | nil => exact .fail _ h
    | cons v rest => exact .done none ((h.insert ha v).withCore ⟨m.counter.advance, rest⟩)
  | write =>
    cases hm : m.memory.get? a with
    | none => simp [AM0.Machine.access, hm]
    | some v =>
      left
      simp only [AM0.Machine.access, AM1.Machine.access, hm, h.cell a v hm]
      exact .done (some v) (h.withCore m.next)
  | read =>
    left
    simp only [AM0.Machine.access, AM1.Machine.access, hslot]
    exact .read a h fun v => (h.insert ha v).withCore m.next

theorem act_alike (h : Represents cells m n) {i : AM0.Instruction} (hi : Within cells i) :
    Action.Alike (Represents cells) (m.act i) (n.act (instruction i)) ∨
    ∃ m' e, m.act i = .fail m' e ∧ ∃ c a, e = .missingAddress c a := by
  obtain ⟨opcode, payload⟩ := i
  cases opcode with
  | operator op => exact Or.inl (h.onCore _)
  | access kind =>
    exact (access_alike h (hi kind rfl) kind).imp id fun hm => ⟨m, _, hm, _, _, rfl⟩
  | lit =>
    left
    simp only [AM0.Machine.act, AM1.Machine.act, instruction, h.core]
    exact .done none (h.withCore _)
  | jmp =>
    left
    simp only [AM0.Machine.act, AM1.Machine.act, instruction, h.core]
    exact .done none (h.withCore _)
  | jmc => exact Or.inl (h.onCore _)

def missesCell : Outcome → Bool
  | .error (.missingAddress _ _) => true
  | _ => false

/-- Unless one of the first `k` steps of `x` misses a cell, they and those of
`y` execute corresponding instructions with the same outcomes, take the same
words from the input, end together and leave related machines. -/
def LockStep {σ : Type} [Source σ] (cells k : Nat) (x : Execution AM0.Machine AM0.Instruction σ)
    (y : Execution AM1.Machine AM1.Instruction σ) : Prop :=
  (∀ q ∈ x.history k, missesCell q.2 = false) →
    y.history k = (x.history k).map (Prod.map instruction id) ∧
    (y.after k).input = (x.after k).input ∧
    (y.after k).finished = (x.after k).finished ∧
    Represents cells (x.after k).machine (y.after k).machine

theorem lockStep_of_linked {σ : Type} [Source σ] {x : Execution AM0.Machine AM0.Instruction σ}
    {y : Execution AM1.Machine AM1.Instruction σ}
    (h : Execution.Linked instruction (Represents cells) Eq x y)
    (hp : ∀ i ∈ x.program.code, Within cells i) (k : Nat) : LockStep cells k x y := by
  intro hok
  obtain ⟨hh, hl⟩ := Execution.history_linked (fun m n hm => hm.counter) sameWords_eq k h
    (fun i hi m n hm => act_alike hm (hp i hi)) (by
      rintro i e hi ⟨c, a, rfl⟩
      simpa [missesCell] using hok _ hi)
  exact ⟨hh, hl.input.symm, hl.finished, hl.machine⟩

/-- The runtime stack does for a program what the sparse memory does, whether
the program is started on related machines or found halfway through. -/
theorem runtime_stack_simulates_memory {σ : Type} [Source σ] {p : Program AM0.Instruction}
    (hp : ∀ i ∈ p.code, Within cells i) (h : Represents cells m n) (input : σ) (k : Nat) :
    LockStep cells k (.start p m input) (.start (p.map instruction) n input) ∧
    ∀ finished,
      LockStep cells k ⟨p, m, input, finished⟩ ⟨p.map instruction, n, input, finished⟩ := by
  constructor
  · have hstart : Represents cells (Model.setCounter 0 m) (Model.setCounter 0 n) :=
      ⟨rfl, h.stack, h.room, h.cell⟩
    exact lockStep_of_linked ⟨rfl, hstart, rfl, rfl⟩ hp k
  · intro finished
    exact lockStep_of_linked ⟨rfl, h, rfl, rfl⟩ hp k

def countdown : Program AM0.Instruction :=
  ⟨#[⟨.access .read, 1⟩, ⟨.access .load, 1⟩, ⟨.jmc, 0⟩, ⟨.access .write, 1⟩, ⟨.access .load, 1⟩,
    ⟨.lit, 1⟩, ⟨.operator .sub, 0⟩, ⟨.access .store, 1⟩, ⟨.jmp, 2⟩]⟩

theorem countdown_simulated :
    let x := Execution.start countdown (Model.initial : AM0.Machine) [(1 : Word)]
    let y := Execution.start (countdown.map instruction)
      { runtime := #[7] : AM1.Machine } [(1 : Word)]
    (x.history 12).length = 11 ∧ (x.after 12).finished = true ∧
      y.history 12 = (x.history 12).map (Prod.map instruction id) ∧
      (y.after 12).finished = true := by
  intro x y
  have hp : ∀ i ∈ countdown.code, Within 1 i := by
    simp [countdown, Within]
  have h : Represents 1 (Model.initial : AM0.Machine) { runtime := #[7] : AM1.Machine } :=
    ⟨rfl, rfl, by decide, fun a v hv => by
      simp [Model.initial, AM0.Memory.empty, AM0.Memory.get?] at hv⟩
  have hlen : (x.history 12).length = 11 := by decide +kernel
  have hend : (x.after 12).finished = true := by decide +kernel
  obtain ⟨hh, -, hf, -⟩ :=
    (runtime_stack_simulates_memory hp h [(1 : Word)] 12).1 (by decide +kernel)
  exact ⟨hlen, hend, hh, hf.trans hend⟩

end Embedding
end AbstractMachines
