import AbstractMachines.Proofs.Leftovers

/-!
# Words below the operand stack

An AM1 instruction touches the top of the operand stack only. With more words beneath
the stack it does what it does without them and leaves them where they are, unless it
finds too few words and underflows. This carries over to whole runs, calls and loops
included: the two runs go through the same counters, slots, references, outputs and
inputs, and fail alike.
-/

namespace AbstractMachines

def RuntimeError.isUnderflow : RuntimeError → Bool
  | stackUnderflow _ _ _ => true
  | missingAddress _ _ | inputExhausted _ | divisionByZero _ | stackOverflow _ _ => false

namespace AM1
namespace Machine

def atop (m : Machine) (below : List Word) : Machine := { m with toCore := m.toCore.atop below }

@[simp] theorem slot?_atop (m : Machine) (below : List Word) (a : Word) :
    (m.atop below).slot? a = m.slot? a := rfl

@[simp] theorem reference_atop (m : Machine) (below : List Word) :
    (m.atop below).reference = m.reference := rfl

def Framed (f : Machine → Action Machine) : Prop :=
  ∀ (m : Machine) (below : List Word),
    Action.Alike (fun m n => n = m.atop below) (f m) (f (m.atop below)) ∨
    ∃ needed, f m = .fail m (m.underflow needed)

theorem onCore_framed {f : Core → Except RuntimeError Core} (hf : Core.Framed f) :
    Framed (onCore f) := by
  intro m below
  rcases hf m.toCore below with h | ⟨needed, h⟩
  · exact .inl (onCore_alike (·.atop below) rfl h fun _ => rfl)
  · exact .inr ⟨needed, onCore_of_error h⟩

theorem access_framed (kind : Access) (a : Word) : Framed (access kind a) := by
  intro m below
  cases kind with
  | load =>
    left
    simp only [access, slot?_atop]
    cases m.slot? a with
    | some v => exact .done none rfl
    | none => exact .fail _ rfl
  | store =>
    cases hs : m.stack with
    | nil => exact .inr ⟨1, by simp only [access, hs]⟩
    | cons v rest =>
      left
      have hstack : (m.atop below).stack = v :: (rest ++ below) := by
        simp [atop, Core.atop, hs]
      simp only [access, hs, hstack, slot?_atop]
      cases m.slot? a with
      | some w => exact .done none rfl
      | none => exact .fail _ rfl
  | write =>
    left
    simp only [access, slot?_atop]
    cases m.slot? a with
    | some v => exact .done (some v) rfl
    | none => exact .fail _ rfl
  | read =>
    left
    simp only [access, slot?_atop]
    cases m.slot? a with
    | some v => exact .read a rfl fun _ => rfl
    | none => exact .fail _ rfl

theorem accessIndirect_framed (kind : Access) (o : Word) : Framed (accessIndirect kind o) := by
  intro m below
  by_cases hnone : kind = .store ∧ m.stack = []
  · exact .inr ⟨1, by rw [accessIndirect, if_pos hnone]⟩
  · have hbelow : ¬(kind = .store ∧ (m.atop below).stack = []) := by
      rintro ⟨hkind, hstack⟩
      exact hnone ⟨hkind, (List.append_eq_nil_iff.1 hstack).1⟩
    simp only [accessIndirect, if_neg hnone, if_neg hbelow, slot?_atop, reference_atop]
    cases m.slot? (m.reference.addClamp o) with
    | some a => exact access_framed kind a m below
    | none => exact .inl (.fail _ rfl)

theorem pushSlot_framed : Framed pushSlot := by
  intro m below
  cases hs : m.stack with
  | nil => exact .inr ⟨1, by simp only [pushSlot, hs]⟩
  | cons v rest =>
    left
    have hstack : (m.atop below).stack = v :: (rest ++ below) := by
      simp [atop, Core.atop, hs]
    simp only [pushSlot, hs, hstack]
    by_cases hroom : m.HasRoom 1
    · have hbelow : (m.atop below).HasRoom 1 := hroom
      rw [if_pos hroom, if_pos hbelow]
      exact .done none rfl
    · have hbelow : ¬(m.atop below).HasRoom 1 := hroom
      rw [if_neg hroom, if_neg hbelow]
      exact .fail _ rfl

theorem framed_of_room {extra : Nat} {g : Machine → Machine}
    (hg : ∀ m below, g (m.atop below) = (g m).atop below) :
    Framed fun m => if m.HasRoom extra then .done (g m) none else m.overflow := by
  intro m below
  left
  by_cases hroom : m.HasRoom extra
  · have hbelow : (m.atop below).HasRoom extra := hroom
    simp only [if_pos hroom, if_pos hbelow]
    exact .done none (hg m below)
  · have hbelow : ¬(m.atop below).HasRoom extra := hroom
    simp only [if_neg hroom, if_neg hbelow]
    exact .fail _ rfl

theorem ret_framed (params : Word) : Framed (ret params) := by
  intro m below
  left
  have hreturn : (m.atop below).slot? ((m.atop below).reference.subClamp 1) =
      m.slot? (m.reference.subClamp 1) := rfl
  have hsaved : (m.atop below).slot? (m.atop below).reference = m.slot? m.reference := rfl
  unfold ret
  simp only [hreturn, hsaved]
  cases m.slot? (m.reference.subClamp 1) with
  | none => exact .fail _ rfl
  | some target =>
    cases m.slot? m.reference with
    | none => exact .fail _ rfl
    | some saved =>
      by_cases hkeep : (m.reference.subClamp 2).subClamp params < 0
      · have hbelow : ((m.atop below).reference.subClamp 2).subClamp params < 0 := hkeep
        simp only [if_pos hkeep, if_pos hbelow]
        exact .fail _ rfl
      · have hbelow : ¬((m.atop below).reference.subClamp 2).subClamp params < 0 := hkeep
        simp only [if_neg hkeep, if_neg hbelow]
        exact .done none rfl

theorem act_framed (i : Instruction) : Framed (act i) := by
  cases i with
  | operator op => exact onCore_framed (Core.operate_framed op)
  | direct kind a => exact fun m => access_framed kind (m.resolve a) m
  | indirect kind o => exact accessIndirect_framed kind o
  | lit n => exact fun m below => .inl (.done none rfl)
  | loada a => exact fun m below => .inl (.done none rfl)
  | push => exact pushSlot_framed
  | jmp n => exact fun m below => .inl (.done none rfl)
  | jmc n => exact onCore_framed (Core.branch_framed n)
  | call n => exact framed_of_room fun m below => rfl
  | init n => exact framed_of_room fun m below => rfl
  | ret n => exact ret_framed n

end Machine

open Execution

theorem history_framed {σ : Type} [Source σ] (p : Program Instruction) (m : Machine)
    (below : List Word) (s : σ) {k : Nat}
    (h : ∀ i e, (i, .error e) ∈ (start p m s).history k → e.isUnderflow = false) :
    (start p (m.atop below) s).history k = (start p m s).history k ∧
    ((start p (m.atop below) s).after k).input = ((start p m s).after k).input ∧
    ((start p (m.atop below) s).after k).machine = ((start p m s).after k).machine.atop below := by
  have hlink : Linked id (fun m n => n = m.atop below) Eq (start p m s)
      (start p (m.atop below) s) := ⟨by simp [start, Program.map], rfl, rfl, rfl⟩
  have hact : ∀ i ∈ (start p m s).program.code, ∀ m n : Machine, n = m.atop below →
      Action.Alike (fun m n => n = m.atop below) (Model.act i m) (Model.act (id i) n) ∨
      ∃ m' e, Model.act i m = .fail m' e ∧ e.isUnderflow = true := by
    rintro i - m n rfl
    rcases Machine.act_framed i m below with h | ⟨needed, ha⟩
    · exact .inl h
    · exact .inr ⟨m, _, ha, rfl⟩
  obtain ⟨hh, hl⟩ := history_linked (by rintro m n rfl; rfl) sameWords_eq k hlink hact
    (fun i e hmem => by simp [h i e hmem])
  exact ⟨by simpa using hh, hl.input.symm, hl.machine⟩

/-- As long as the steps of a program succeed, words inserted below the operand stack stay
where they are and nothing else differs. If the next step fails other than by an
underflow, it fails alike. -/
theorem operand_stack_is_framed {σ : Type} [Source σ] (p : Program Instruction) (m : Machine)
    (below : List Word) (s : σ) (k : Nat) :
    let x := start p m s
    let y := start p (m.atop below) s
    (∀ q ∈ x.history k, q.2.isOk = true) →
      (∀ j ≤ k, y.history j = x.history j ∧ (y.after j).input = (x.after j).input ∧
        (y.after j).machine = (x.after j).machine.atop below) ∧
      ∀ i e, x.history (k + 1) = x.history k ++ [(i, .error e)] → e.isUnderflow = false →
        y.history (k + 1) = y.history k ++ [(i, .error e)] := by
  intro x y hok
  have hnone : ∀ i e, (i, .error e) ∉ x.history k := by
    intro i e hmem
    simpa [Except.isOk, Except.toBool] using hok _ hmem
  constructor
  · intro j hj
    refine history_framed p m below s fun i e hmem => ?_
    have hend : x.ending k = .failed e :=
      (ending_mono hj (by simp [ending_eq_failed_iff.2 ⟨i, hmem⟩, x])).trans
        (ending_eq_failed_iff.2 ⟨i, hmem⟩)
    obtain ⟨i', hmem'⟩ := ending_eq_failed_iff.1 hend
    exact absurd hmem' (hnone i' e)
  · intro i e hnext he
    have hsteps : y.history k = x.history k :=
      (history_framed p m below s fun i e hmem => absurd hmem (hnone i e)).1
    rw [hsteps, ← hnext]
    refine (history_framed p m below s fun i' e' hmem => ?_).1
    rw [show (start p m s).history (k + 1) = _ from hnext, List.mem_append,
      List.mem_singleton] at hmem
    rcases hmem with hmem | hmem
    · exact absurd hmem (hnone i' e')
    · cases hmem
      exact he

def excursion : Program Instruction :=
  ⟨#[.lit 7, .lit 6, .push, .call 7, .lit 0, .operator .div, .direct .write ⟨.localBase, -2⟩, .ret 1]⟩

theorem excursion_framed :
    let y := start excursion ((Model.initial : Machine).atop [8, 9]) ([] : List Word)
    (y.after 7).machine = { counter := 5, stack := [0, 7, 8, 9] } ∧ y.outputs 7 = [6] ∧
    y.history 8 = y.history 7 ++ [(.operator .div, .error (.divisionByZero 5))] := by
  intro y
  obtain ⟨hsteps, hnext⟩ := operand_stack_is_framed excursion Model.initial [8, 9]
    ([] : List Word) 7 (by decide +kernel)
  obtain ⟨hhistory, -, hmachine⟩ := hsteps 7 (Nat.le_refl 7)
  refine ⟨hmachine.trans rfl, ?_, hnext (.operator .div) (.divisionByZero 5) rfl rfl⟩
  rw [outputs, hhistory]
  rfl

end AM1
end AbstractMachines
