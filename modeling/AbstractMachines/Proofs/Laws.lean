import AbstractMachines.AM0.Machine
import AbstractMachines.AM1.Machine
import AbstractMachines.Registry
import AbstractMachines.Session

/-!
# Laws of sources and machines

A source is lawful if asking it in vain changes nothing. A machine is lawful
if an instruction that fails or waits for a word hands the machine back
unchanged, a failure carries the machine's counter, and the instructions that
wait for a word are the reading ones. Both machines are lawful; everything
about executions that does not depend on the instruction set rests on these
laws alone.
-/

namespace AbstractMachines

class LawfulSource (σ : Type) [Source σ] : Prop where
  next_none {s t : σ} : Source.next s = (none, t) → t = s

instance : LawfulSource (List Word) where
  next_none {s t} h := by
    cases s with
    | nil => simpa [Source.next] using h.symm
    | cons v vs => simp [Source.next] at h

instance : LawfulSource Backlog where
  next_none {s t} h := by
    obtain ⟨values⟩ := s
    simp only [Source.next, Prod.mk.injEq, List.getLast?_eq_none_iff] at h
    obtain ⟨rfl, rfl⟩ := h
    rfl

class ReadingSet (ι : Type) where
  isRead : ι → Bool

instance : ReadingSet AM0.Instruction where
  isRead i := i.opcode = .access .read

instance : ReadingSet AM1.Instruction where
  isRead
    | .direct .read _ | .indirect .read _ => true
    | _ => false

def Action.Orderly {μ ι : Type} [Model μ ι] (m : μ) (reads : Bool) : Action μ → Prop
  | .done _ _ => reads = false
  | .fail n e => n = m ∧ e.counter = Model.counter m
  | .read n _ => n = m ∧ reads = true

class LawfulModel (μ : Type) {ι : Type} [Model μ ι] [ReadingSet ι] : Prop where
  act_orderly (i : ι) (m : μ) : (Model.act i m).Orderly m (ReadingSet.isRead i)

namespace Core

theorem operate_error {op : Operator} {c : Core} {e : RuntimeError}
    (h : c.operate op = .error e) : e.counter = c.counter := by
  unfold operate at h
  split at h
  · split at h <;> simp at h
    rw [← h]
    rfl
  · simp only [Except.error.injEq] at h
    rw [← h]
    rfl

theorem branch_error {n : Word} {c : Core} {e : RuntimeError}
    (h : c.branch n = .error e) : e.counter = c.counter := by
  unfold branch at h
  split at h
  · simp at h
  · simp only [Except.error.injEq] at h
    rw [← h]
    rfl

end Core

section OnCore

variable {μ : Type} [HasCore μ] {f : Core → Except RuntimeError Core}

theorem onCore_of_error {m : μ} {e : RuntimeError} (h : f (HasCore.core m) = .error e) :
    onCore f m = .fail m e := by
  rw [onCore, h]

theorem onCore_cases (f : Core → Except RuntimeError Core) (m : μ) :
    (∃ c, f (HasCore.core m) = .ok c ∧ onCore f m = .done (HasCore.withCore c m) none) ∨
    ∃ e, f (HasCore.core m) = .error e ∧ onCore f m = .fail m e := by
  cases h : f (HasCore.core m) with
  | ok c => exact .inl ⟨c, rfl, by rw [onCore, h]⟩
  | error e => exact .inr ⟨e, rfl, onCore_of_error h⟩

theorem onCore_done {m n : μ} {o : Option Word} (h : onCore f m = .done n o) :
    ∃ c, n = HasCore.withCore c m := by
  rcases onCore_cases f m with ⟨c, -, hc⟩ | ⟨e, -, he⟩
  · rw [hc] at h
    cases h
    exact ⟨c, rfl⟩
  · rw [he] at h
    cases h

theorem onCore_orderly {ι : Type} [Model μ ι] {m : μ}
    (hf : ∀ e, f (HasCore.core m) = .error e → e.counter = Model.counter m) :
    (onCore f m).Orderly m false := by
  rcases onCore_cases f m with ⟨c, -, h⟩ | ⟨e, he, h⟩
  · rw [h]
    rfl
  · rw [h]
    exact ⟨rfl, hf e he⟩

end OnCore

namespace AM0
namespace Machine

@[simp] theorem model_counter (m : Machine) : Model.counter m = m.counter := rfl

@[simp] theorem model_act (i : Instruction) (m : Machine) : Model.act i m = m.act i := rfl

theorem access_orderly (kind : Access) (a : Word) (m : Machine) :
    (m.access kind a).Orderly m (decide (kind = .read)) := by
  cases kind with
  | load =>
    cases h : m.memory.get? a <;>
      simp [access, h, missing, Action.Orderly, RuntimeError.counter]
  | store =>
    cases h : m.stack <;>
      simp [access, h, Action.Orderly, Core.underflow, RuntimeError.counter]
  | write =>
    cases h : m.memory.get? a <;>
      simp [access, h, missing, Action.Orderly, RuntimeError.counter]
  | read => exact ⟨rfl, rfl⟩

end Machine

instance : LawfulModel Machine where
  act_orderly i m := by
    obtain ⟨opcode, payload⟩ := i
    cases opcode with
    | operator op => exact onCore_orderly fun e => Core.operate_error
    | access kind =>
      simpa [ReadingSet.isRead, Machine.act] using Machine.access_orderly kind payload m
    | lit => rfl
    | jmp => rfl
    | jmc => exact onCore_orderly fun e => Core.branch_error

end AM0

namespace AM1
namespace Machine

@[simp] theorem model_counter (m : Machine) : Model.counter m = m.counter := rfl

@[simp] theorem model_act (i : Instruction) (m : Machine) : Model.act i m = m.act i := rfl

theorem access_orderly (kind : Access) (a : Word) (m : Machine) :
    (m.access kind a).Orderly m (decide (kind = .read)) := by
  cases kind with
  | load => cases h : m.slot? a <;> simp [access, h, missing, Action.Orderly, RuntimeError.counter]
  | store =>
    cases hs : m.stack with
    | nil => simp [access, hs, Action.Orderly, Core.underflow, RuntimeError.counter]
    | cons v rest =>
      cases h : m.slot? a <;>
        simp [access, hs, h, missing, Action.Orderly, RuntimeError.counter]
  | write => cases h : m.slot? a <;> simp [access, h, missing, Action.Orderly, RuntimeError.counter]
  | read => cases h : m.slot? a <;> simp [access, h, missing, Action.Orderly, RuntimeError.counter]

theorem accessIndirect_orderly (kind : Access) (o : Word) (m : Machine) :
    (m.accessIndirect kind o).Orderly m (decide (kind = .read)) := by
  unfold accessIndirect
  split
  · exact ⟨rfl, rfl⟩
  · simp only
    split
    · exact access_orderly kind _ m
    · exact ⟨rfl, rfl⟩

theorem pushSlot_orderly (m : Machine) : m.pushSlot.Orderly m false := by
  unfold pushSlot
  split
  · split
    · rfl
    · exact ⟨rfl, rfl⟩
  · exact ⟨rfl, rfl⟩

theorem ret_orderly (params : Word) (m : Machine) : (m.ret params).Orderly m false := by
  unfold ret
  simp only
  split
  · exact ⟨rfl, rfl⟩
  · split
    · exact ⟨rfl, rfl⟩
    · split
      · exact ⟨rfl, rfl⟩
      · rfl

end Machine

instance : LawfulModel Machine where
  act_orderly i m := by
    cases i with
    | operator op => exact onCore_orderly fun e => Core.operate_error
    | direct kind a =>
      have h := Machine.access_orderly kind (m.resolve a) m
      cases kind <;> exact h
    | indirect kind o =>
      have h := Machine.accessIndirect_orderly kind o m
      cases kind <;> exact h
    | lit n => rfl
    | loada a => rfl
    | push => exact m.pushSlot_orderly
    | jmp n => rfl
    | jmc n => exact onCore_orderly fun e => Core.branch_error
    | call n =>
      simp only [Machine.model_act, Machine.act, Machine.call]
      split
      · rfl
      · exact ⟨rfl, rfl⟩
    | init n =>
      simp only [Machine.model_act, Machine.act, Machine.init]
      split
      · rfl
      · exact ⟨rfl, rfl⟩
    | ret n => exact m.ret_orderly n

end AM1

section Execute

variable {μ ι σ : Type} [Model μ ι] [Source σ] {i : ι} {m n : μ} {s : σ}

theorem execute_of_done {o : Option Word} (h : Model.act i m = .done n o) :
    execute i m s = ⟨.ok o, n, s⟩ := by
  simp only [execute, h]

theorem execute_of_fail {e : RuntimeError} (h : Model.act i m = .fail n e) :
    execute i m s = ⟨.error e, n, s⟩ := by
  simp only [execute, h]

theorem execute_of_read {a v : Word} {t : σ} (h : Model.act i m = .read n a)
    (hs : Source.next s = (some v, t)) : execute i m s = ⟨.ok none, Model.deliver a v n, t⟩ := by
  simp only [execute, h, hs]

theorem execute_of_starved {a : Word} {t : σ} (h : Model.act i m = .read n a)
    (hs : Source.next s = (none, t)) :
    execute i m s = ⟨.error (.inputExhausted (Model.counter n)), n, t⟩ := by
  simp only [execute, h, hs]

variable [ReadingSet ι] [LawfulModel μ]

theorem execute_error [LawfulSource σ] {e : RuntimeError}
    (h : (execute i m s).outcome = .error e) :
    execute i m s = ⟨.error e, m, s⟩ ∧ e.counter = Model.counter m := by
  have hact := LawfulModel.act_orderly i m
  cases ha : Model.act i m with
  | done n o => simp [execute_of_done ha] at h
  | fail n e' =>
    rw [ha] at hact
    obtain ⟨rfl, hc⟩ := hact
    simp only [execute_of_fail ha, Except.error.injEq] at h
    subst h
    exact ⟨execute_of_fail ha, hc⟩
  | read n a =>
    rw [ha] at hact
    obtain ⟨rfl, -⟩ := hact
    match hs : Source.next s with
    | (some v, t) => simp [execute_of_read ha hs] at h
    | (none, t) =>
      have ht := LawfulSource.next_none hs
      subst ht
      simp only [execute_of_starved ha hs, Except.error.injEq] at h
      subst h
      exact ⟨execute_of_starved ha hs, rfl⟩

theorem execute_ok {o : Option Word} {t : σ} (h : execute i m s = ⟨.ok o, n, t⟩) :
    (ReadingSet.isRead i = false ∧ Model.act i m = .done n o ∧ t = s) ∨
    (ReadingSet.isRead i = true ∧ o = none ∧
      ∃ a v, Model.act i m = .read m a ∧ Source.next s = (some v, t) ∧
        n = Model.deliver a v m) := by
  have hact := LawfulModel.act_orderly i m
  cases ha : Model.act i m with
  | done n' o' =>
    rw [ha] at hact
    simp only [execute_of_done ha, Reply.mk.injEq, Except.ok.injEq] at h
    obtain ⟨rfl, rfl, rfl⟩ := h
    exact Or.inl ⟨hact, rfl, rfl⟩
  | fail n' e => simp [execute_of_fail ha] at h
  | read n' a =>
    rw [ha] at hact
    obtain ⟨rfl, hread⟩ := hact
    match hs : Source.next s with
    | (some v, t') =>
      simp only [execute_of_read ha hs, Reply.mk.injEq, Except.ok.injEq] at h
      obtain ⟨rfl, rfl, rfl⟩ := h
      exact Or.inr ⟨hread, rfl, a, v, rfl, rfl, rfl⟩
    | (none, t') => simp [execute_of_starved ha hs] at h

end Execute

/-! Statements about both machines quantify over the kind. -/

namespace Kind

def Machine : Kind → Type
  | am0 => AM0.Machine
  | am1 => AM1.Machine

def Instruction : Kind → Type
  | am0 => AM0.Instruction
  | am1 => AM1.Instruction

instance (kind : Kind) : InstructionSet kind.Instruction :=
  match kind with
  | am0 => inferInstanceAs (InstructionSet AM0.Instruction)
  | am1 => inferInstanceAs (InstructionSet AM1.Instruction)

instance (kind : Kind) : ReadingSet kind.Instruction :=
  match kind with
  | am0 => inferInstanceAs (ReadingSet AM0.Instruction)
  | am1 => inferInstanceAs (ReadingSet AM1.Instruction)

instance (kind : Kind) : Model kind.Machine kind.Instruction :=
  match kind with
  | am0 => inferInstanceAs (Model AM0.Machine AM0.Instruction)
  | am1 => inferInstanceAs (Model AM1.Machine AM1.Instruction)

instance (kind : Kind) : LawfulModel kind.Machine :=
  match kind with
  | am0 => inferInstanceAs (LawfulModel AM0.Machine)
  | am1 => inferInstanceAs (LawfulModel AM1.Machine)

end Kind
end AbstractMachines
