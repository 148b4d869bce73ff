import AbstractMachines.Proofs.Laws
import AbstractMachines.Proofs.Storage

/-!
# The limit of the runtime stack

A machine that starts empty never has more than `slotLimit` slots, whatever it is
made to do. Pushing a slot, calling and reserving slots are the only instructions
that make the runtime stack longer. Each of them overflows exactly when the slots
there are and the slots it adds exceed the limit as integers. A negative number of
slots to reserve counts as zero, and a return that gives up a negative number of
parameters keeps no more slots than there are.
-/

namespace AbstractMachines

def Action.machine {μ : Type} : Action μ → μ
  | .done m _ | .fail m _ | .read m _ => m

namespace AM1

def Instruction.growth? : Instruction → Option Int
  | push => some 1
  | call _ => some 2
  | init n => some (max n.toInt 0)
  | _ => none

/-- What a machine can be after any number of operations, failed ones included. -/
inductive Reachable : Machine → Prop where
  | initial : Reachable Model.initial
  | execute {σ : Type} [Source σ] {m : Machine} (h : Reachable m) (i : Instruction) (s : σ) :
      Reachable (execute i m s).machine
  | setCounter {m : Machine} (h : Reachable m) (c : Word) : Reachable (Model.setCounter c m)
  | reset {m : Machine} (h : Reachable m) : Reachable Model.initial

namespace Machine

theorem size_onCore (f : Core → Except RuntimeError Core) (m : Machine) :
    (onCore f m).machine.runtime.size = m.runtime.size := by
  rcases onCore_cases f m with ⟨c, -, h⟩ | ⟨e, -, h⟩
  · rw [h]
    rfl
  · rw [h]
    rfl

theorem size_access (kind : Access) (a : Word) (m : Machine) :
    (m.access kind a).machine.runtime.size = m.runtime.size := by
  cases kind with
  | load => cases h : m.slot? a <;> simp [access, h, missing, Action.machine]
  | store =>
    cases hs : m.stack with
    | nil => simp [access, hs, Action.machine]
    | cons v rest =>
      cases h : m.slot? a <;> simp [access, hs, h, missing, Action.machine, advance]
  | write => cases h : m.slot? a <;> simp [access, h, missing, Action.machine, advance]
  | read => cases h : m.slot? a <;> simp [access, h, missing, Action.machine]

theorem size_accessIndirect (kind : Access) (o : Word) (m : Machine) :
    (m.accessIndirect kind o).machine.runtime.size = m.runtime.size := by
  unfold accessIndirect
  split
  · rfl
  · simp only
    split
    · exact size_access kind _ m
    · rfl

theorem size_ret_le (params : Word) (m : Machine) :
    (m.ret params).machine.runtime.size ≤ m.runtime.size := by
  unfold ret
  simp only
  split
  · exact Nat.le_refl _
  · split
    · exact Nat.le_refl _
    · split
      · exact Nat.le_refl _
      -- there may be fewer slots than a return would keep
      · simp only [Action.machine, Array.size_shrink]
        exact Nat.min_le_right _ _

theorem size_act_le {i : Instruction} (hi : i.growth? = none) (m : Machine) :
    (m.act i).machine.runtime.size ≤ m.runtime.size := by
  cases i with
  | operator op => exact Nat.le_of_eq (size_onCore _ m)
  | direct kind a => exact Nat.le_of_eq (size_access kind _ m)
  | indirect kind o => exact Nat.le_of_eq (size_accessIndirect kind o m)
  | jmc n => exact Nat.le_of_eq (size_onCore _ m)
  | ret n => exact size_ret_le n m
  | lit n => exact Nat.le_refl _
  | loada a => exact Nat.le_refl _
  | jmp n => exact Nat.le_refl _
  | push => simp [Instruction.growth?] at hi
  | call n => simp [Instruction.growth?] at hi
  | init n => simp [Instruction.growth?] at hi

theorem grows_or_overflows {a : Action Machine} {m n : Machine} {extra : Nat}
    (ha : a = if m.HasRoom extra then .done n none else m.overflow)
    (hn : n.runtime.size = m.runtime.size + extra) :
    ((m.runtime.size : Int) + extra ≤ slotLimit ∧
      ∃ n, a = .done n none ∧ (n.runtime.size : Int) = m.runtime.size + extra) ∨
    ((slotLimit : Int) < m.runtime.size + extra ∧ a = m.overflow) := by
  by_cases hroom : m.HasRoom extra
  · have hle : m.runtime.size + extra ≤ slotLimit := hroom
    exact Or.inl ⟨by omega, n, by rw [ha, if_pos hroom], by omega⟩
  · have hlt : ¬ m.runtime.size + extra ≤ slotLimit := hroom
    exact Or.inr ⟨by omega, by rw [ha, if_neg hroom]⟩

theorem act_of_growth {i : Instruction} {g : Int} (hi : i.growth? = some g) {m : Machine}
    (hpush : i = .push → m.stack ≠ []) :
    (m.runtime.size + g ≤ slotLimit ∧
      ∃ n, m.act i = .done n none ∧ (n.runtime.size : Int) = m.runtime.size + g) ∨
    (slotLimit < m.runtime.size + g ∧ m.act i = m.overflow) := by
  cases i with
  | push =>
    obtain rfl : 1 = g := by simpa [Instruction.growth?] using hi
    obtain ⟨v, rest, hs⟩ := List.exists_cons_of_ne_nil (hpush rfl)
    exact grows_or_overflows (by simp only [act, pushSlot, hs]; rfl) (by simp [advance])
  | call n =>
    obtain rfl : 2 = g := by simpa [Instruction.growth?] using hi
    exact grows_or_overflows (by rw [act, call]) (by simp [enter])
  | init n =>
    -- cut off at zero, the operand is a natural number, and so is the sum: nothing wraps
    have hcount : (n.toNatClampNeg : Int) = max n.toInt 0 := by
      rw [← Int64.toNat_toInt, Int.toNat_eq_max]
    obtain rfl : (n.toNatClampNeg : Int) = g := by simpa [Instruction.growth?, hcount] using hi
    exact grows_or_overflows (by rw [act, init]) (by simp [advance])
  | _ => simp [Instruction.growth?] at hi

theorem act_push_of_nil {m : Machine} (hs : m.stack = []) :
    m.act .push = .fail m (m.underflow 1) := by
  simp only [act, pushSlot, hs]

section Execute

variable {σ : Type} [Source σ] {i : Instruction} {m : Machine} (s : σ)

theorem size_execute (i : Instruction) (m : Machine) :
    (execute i m s).machine.runtime.size = (m.act i).machine.runtime.size := by
  cases ha : m.act i with
  | done n o => rw [execute_of_done ha]; rfl
  | fail n e => rw [execute_of_fail ha]; rfl
  | read n a =>
    match hs : Source.next s with
    -- the word goes into a slot that is there already
    | (some v, t) =>
      rw [execute_of_read ha hs]
      exact size_assign n a v
    | (none, t) => rw [execute_of_starved ha hs]; rfl

theorem execute_of_growth {g : Int} (hi : i.growth? = some g) (hpush : i = .push → m.stack ≠ []) :
    ((execute i m s).outcome = .error (.stackOverflow m.counter slotLimit) ↔
      slotLimit < m.runtime.size + g) ∧
    (m.runtime.size + g ≤ slotLimit →
      (execute i m s).outcome = .ok none ∧
      ((execute i m s).machine.runtime.size : Int) = m.runtime.size + g) := by
  rcases act_of_growth hi hpush with ⟨hle, n, ha, hsize⟩ | ⟨hlt, ha⟩
  · rw [execute_of_done ha]
    exact ⟨⟨by simp, fun h => absurd h (by omega)⟩, fun _ => ⟨rfl, hsize⟩⟩
  · rw [overflow] at ha
    rw [execute_of_fail ha]
    exact ⟨⟨fun _ => hlt, fun _ => rfl⟩, fun h => absurd h (by omega)⟩

theorem size_execute_le_limit (h : m.runtime.size ≤ slotLimit) (i : Instruction) :
    (execute i m s).machine.runtime.size ≤ slotLimit := by
  cases hi : i.growth? with
  | none =>
    rw [size_execute]
    exact Nat.le_trans (size_act_le hi m) h
  | some g =>
    by_cases hpush : i = .push → m.stack ≠ []
    · rcases act_of_growth hi hpush with ⟨hle, n, ha, hsize⟩ | ⟨-, ha⟩
      · rw [execute_of_done ha]
        simp only
        omega
      · rw [overflow] at ha
        rwa [execute_of_fail ha]
    · obtain ⟨rfl, hs⟩ := Classical.not_imp.1 hpush
      rwa [execute_of_fail (act_push_of_nil (Classical.not_not.1 hs))]

end Execute
end Machine

theorem Reachable.size_le {m : Machine} (h : Reachable m) : m.runtime.size ≤ slotLimit := by
  induction h with
  | initial => exact Nat.zero_le _
  | execute h i s ih => exact Machine.size_execute_le_limit s ih i
  | setCounter h c ih => exact ih
  | reset h ih => exact Nat.zero_le _

/-- The runtime stack of a machine that started empty is within the limit. An
instruction that adds slots overflows exactly where the limit would be exceeded
and otherwise adds them all; no other instruction makes the stack longer. -/
theorem runtime_stack_is_limited {m : Machine} (h : Reachable m) {σ : Type} [Source σ]
    (i : Instruction) (s : σ) :
    slotLimit = Nat.pow 2 20 ∧ m.runtime.size ≤ slotLimit ∧
    (∀ g, i.growth? = some g → (i = .push → m.stack ≠ []) →
      ((execute i m s).outcome = .error (.stackOverflow m.counter slotLimit) ↔
        slotLimit < m.runtime.size + g) ∧
      (m.runtime.size + g ≤ slotLimit →
        (execute i m s).outcome = .ok none ∧
        ((execute i m s).machine.runtime.size : Int) = m.runtime.size + g)) ∧
    (i.growth? = none → (execute i m s).machine.runtime.size ≤ m.runtime.size) := by
  refine ⟨rfl, h.size_le, fun g hi hpush => ?_, fun hi => ?_⟩
  · exact Machine.execute_of_growth s hi hpush
  · rw [Machine.size_execute]
    exact Machine.size_act_le hi m

def filled : Machine := (execute (.init 1048576) (Model.initial : Machine) ([] : List Word)).machine

theorem filled_is_limited :
    filled.runtime.size = slotLimit ∧
    (execute (.call 7) filled ([] : List Word)).outcome =
      .error (.stackOverflow filled.counter slotLimit) ∧
    (execute (.init (-5)) filled ([] : List Word)).outcome = .ok none ∧
    (execute (.ret (-9223372036854775808)) filled ([] : List Word)).machine.runtime.size ≤
      slotLimit := by
  have hreach : Reachable filled := .execute .initial _ _
  have hsize : (filled.runtime.size : Int) = 1048576 :=
    (((runtime_stack_is_limited .initial (.init 1048576) ([] : List Word)).2.2.1 1048576 (by decide)
      (by simp)).2 (by decide)).2
  have hlimit : (slotLimit : Int) = 1048576 := rfl
  refine ⟨by omega, ?_, ?_, ?_⟩
  · exact ((runtime_stack_is_limited hreach (.call 7) ([] : List Word)).2.2.1 2 rfl (by simp)).1.2
      (by omega)
  · exact (((runtime_stack_is_limited hreach (.init (-5)) ([] : List Word)).2.2.1 0 (by decide)
      (by simp)).2 (by omega)).1
  · have hle := (runtime_stack_is_limited hreach (.ret (-9223372036854775808))
      ([] : List Word)).2.2.2 rfl
    omega

end AM1
end AbstractMachines
