import AbstractMachines.Proofs.Addressing
import AbstractMachines.Proofs.Frames

/-!
# Where the counter goes

An instruction that is no jump moves the counter to the next instruction, and a
jump that is taken moves it to the instruction that the jump names. Both steps
stop at the ends of the range of words. A counter that has stopped there is not
where exact arithmetic would put it, but neither of the two is inside a program:
a jump to a number below one leads out of every program.

What an instruction can do to the counter is said once for each machine, in
`act_moves`. It depends on the jump that the instruction is and on the top of the
operand stack.
-/

namespace AbstractMachines

/-- The ways to leave the order of the program: to the instruction with a given
number, to that instruction if the top of the operand stack is zero, and to an
instruction whose number is found on the runtime stack. -/
inductive Jump where
  | always (n : Word)
  | ifZero (n : Word)
  | back

class JumpingSet (ι : Type) where
  jump? : ι → Option Jump

instance : JumpingSet AM0.Instruction where
  jump?
    | ⟨.jmp, n⟩ => some (.always n)
    | ⟨.jmc, n⟩ => some (.ifZero n)
    | _ => none

instance : JumpingSet AM1.Instruction where
  jump?
    | .jmp n | .call n => some (.always n)
    | .jmc n => some (.ifZero n)
    | .ret _ => some .back
    | _ => none

namespace Jump

def Moves (c : Word) (stack : List Word) : Option Jump → Word → Prop
  | none, c' => c' = c.advance
  | some (always n), c' => c' = n.jumpBias.advance
  | some (ifZero n), c' =>
    ∃ v rest, stack = v :: rest ∧ c' = if v = 0 then n.jumpBias.advance else c.advance
  | some back, _ => True

section

variable {μ ι : Type} [JumpingSet ι] [HasCore μ]

def Taken (i : ι) (m : μ) (n : Word) : Prop :=
  JumpingSet.jump? i = some (always n) ∨
    (JumpingSet.jump? i = some (ifZero n) ∧ (HasCore.core m).stack.head? = some 0)

def Passed (i : ι) (m : μ) : Prop :=
  ∃ n v, JumpingSet.jump? i = some (ifZero n) ∧ (HasCore.core m).stack.head? = some v ∧ v ≠ 0

end
end Jump

def Action.Moves {μ ι : Type} [Model μ ι] [HasCore μ] (m : μ) (j : Option Jump) :
    Action μ → Prop
  | .done n _ => Jump.Moves (Model.counter m) (HasCore.core m).stack j (Model.counter n)
  | .fail _ _ => True
  | .read _ _ => j = none

class LawfulCounter (μ : Type) {ι : Type} [Model μ ι] : Prop where
  counter_setCounter (c : Word) (m : μ) : Model.counter (Model.setCounter c m) = c
  counter_deliver (a v : Word) (m : μ) :
    Model.counter (Model.deliver a v m) = (Model.counter m).advance

class LawfulJumps (μ : Type) {ι : Type} [Model μ ι] [JumpingSet ι] [HasCore μ] : Prop where
  act_moves (i : ι) (m : μ) : (Model.act i m).Moves m (JumpingSet.jump? i)

namespace Core

theorem counter_operate {op : Operator} {c c' : Core} (h : c.operate op = .ok c') :
    c'.counter = c.counter.advance := by
  unfold operate at h
  split at h
  · split at h
    · simp only [Except.ok.injEq] at h
      rw [← h]
      rfl
    · simp at h
  · simp at h

theorem branch_moves {n : Word} {c c' : Core} (h : c.branch n = .ok c') :
    Jump.Moves c.counter c.stack (some (.ifZero n)) c'.counter := by
  unfold branch at h
  split at h
  · next v rest hs =>
    simp only [Except.ok.injEq] at h
    refine ⟨v, rest, hs, ?_⟩
    rw [← h]
    split <;> rfl
  · simp at h

end Core

theorem onCore_moves {μ ι : Type} [Model μ ι] [HasCore μ] {f : Core → Except RuntimeError Core}
    {m : μ} {j : Option Jump}
    (hf : ∀ c, f (HasCore.core m) = .ok c →
      Jump.Moves (Model.counter m) (HasCore.core m).stack j
        (Model.counter (HasCore.withCore c m))) :
    (onCore f m).Moves m j := by
  rcases onCore_cases f m with ⟨c, hc, h⟩ | ⟨e, -, h⟩
  · rw [h]
    exact hf c hc
  · rw [h]
    trivial

namespace AM0

instance : LawfulCounter Machine where
  counter_setCounter _ _ := rfl
  counter_deliver _ _ _ := rfl

namespace Machine

theorem access_moves (kind : Access) (a : Word) (m : Machine) : (m.access kind a).Moves m none := by
  cases kind with
  | load =>
    cases h : m.memory.get? a <;>
      simp [access, h, missing, Action.Moves, Jump.Moves, Core.next, Core.push]
  | store => cases h : m.stack <;> simp [access, h, Action.Moves, Jump.Moves]
  | write =>
    cases h : m.memory.get? a <;> simp [access, h, missing, Action.Moves, Jump.Moves, Core.next]
  | read => rfl

end Machine

instance : LawfulJumps Machine where
  act_moves i m := by
    obtain ⟨opcode, payload⟩ := i
    cases opcode with
    | operator op => exact onCore_moves fun _ => Core.counter_operate
    | access kind => exact Machine.access_moves kind payload m
    | lit => rfl
    | jmp => rfl
    | jmc => exact onCore_moves fun _ => Core.branch_moves

end AM0

namespace AM1

instance : LawfulCounter Machine where
  counter_setCounter _ _ := rfl
  counter_deliver _ _ _ := rfl

namespace Machine

theorem access_moves (kind : Access) (a : Word) (m : Machine) : (m.access kind a).Moves m none := by
  cases kind with
  | load =>
    cases h : m.slot? a <;>
      simp [access, h, missing, Action.Moves, Jump.Moves, Core.next, Core.push]
  | store =>
    cases hs : m.stack with
    | nil => simp [access, hs, Action.Moves]
    | cons v rest =>
      cases h : m.slot? a <;>
        simp [access, hs, h, missing, Action.Moves, Jump.Moves, advance, assign, Core.next]
  | write =>
    cases h : m.slot? a <;> simp [access, h, missing, Action.Moves, Jump.Moves, advance, Core.next]
  | read => cases h : m.slot? a <;> simp [access, h, missing, Action.Moves]

theorem accessIndirect_moves (kind : Access) (o : Word) (m : Machine) :
    (m.accessIndirect kind o).Moves m none := by
  rcases accessIndirect_cases kind o m with ⟨e, he⟩ | ⟨a, -, he⟩
  · rw [he]
    trivial
  · rw [he]
    exact access_moves kind a m

theorem pushSlot_moves (m : Machine) : m.pushSlot.Moves m none := by
  unfold pushSlot
  split
  · split
    · rfl
    · trivial
  · trivial

theorem ret_moves (params : Word) (m : Machine) : (m.ret params).Moves m (some .back) := by
  unfold ret
  simp only
  repeat' split
  all_goals trivial

end Machine

instance : LawfulJumps Machine where
  act_moves i m := by
    cases i with
    | operator op => exact onCore_moves fun _ => Core.counter_operate
    | direct kind a => exact Machine.access_moves kind (m.resolve a) m
    | indirect kind o => exact Machine.accessIndirect_moves kind o m
    | lit n => rfl
    | loada a => rfl
    | push => exact m.pushSlot_moves
    | jmp n => rfl
    | jmc n => exact onCore_moves fun _ => Core.branch_moves
    | call n =>
      simp only [Machine.model_act, Machine.act, Machine.call]
      split
      · rfl
      · trivial
    | init n =>
      simp only [Machine.model_act, Machine.act, Machine.init]
      split
      · rfl
      · trivial
    | ret n => exact m.ret_moves n

end AM1

namespace Kind

instance (kind : Kind) : JumpingSet kind.Instruction :=
  match kind with
  | am0 => inferInstanceAs (JumpingSet AM0.Instruction)
  | am1 => inferInstanceAs (JumpingSet AM1.Instruction)

instance (kind : Kind) : HasCore kind.Machine :=
  match kind with
  | am0 => inferInstanceAs (HasCore AM0.Machine)
  | am1 => inferInstanceAs (HasCore AM1.Machine)

instance (kind : Kind) : LawfulCounter kind.Machine :=
  match kind with
  | am0 => inferInstanceAs (LawfulCounter AM0.Machine)
  | am1 => inferInstanceAs (LawfulCounter AM1.Machine)

instance (kind : Kind) : LawfulJumps kind.Machine :=
  match kind with
  | am0 => inferInstanceAs (LawfulJumps AM0.Machine)
  | am1 => inferInstanceAs (LawfulJumps AM1.Machine)

theorem isJump_eq (kind : Kind) (i : kind.Instruction) :
    InstructionSet.isJump i = (JumpingSet.jump? i).isSome := by
  cases kind with
  | am0 =>
    obtain ⟨opcode, payload⟩ : AM0.Instruction := i
    cases opcode <;> rfl
  | am1 =>
    change AM1.Instruction at i
    cases i <;> rfl

end Kind

section Step

variable {μ ι σ : Type} [Model μ ι] [Source σ] [ReadingSet ι] [LawfulModel μ] [JumpingSet ι]
variable [HasCore μ] [LawfulCounter μ] [LawfulJumps μ]
variable {i : ι} {m m' : μ} {s t : σ} {o : Option Word}

theorem execute_moves (h : execute i m s = ⟨.ok o, m', t⟩) :
    Jump.Moves (Model.counter m) (HasCore.core m).stack (JumpingSet.jump? i) (Model.counter m') := by
  have hmoves := LawfulJumps.act_moves i m
  rcases execute_ok h with ⟨-, ha, -⟩ | ⟨-, -, a, v, ha, -, rfl⟩
  · rw [ha] at hmoves
    exact hmoves
  · rw [ha] at hmoves
    have hnone : JumpingSet.jump? i = none := hmoves
    rw [hnone]
    exact LawfulCounter.counter_deliver a v m

theorem counter_of_taken (h : execute i m s = ⟨.ok o, m', t⟩) {n : Word} (hn : Jump.Taken i m n) :
    Model.counter m' = n.jumpBias.advance := by
  have hmoves := execute_moves h
  rcases hn with hj | ⟨hj, hzero⟩
  · rw [hj] at hmoves
    exact hmoves
  · rw [hj] at hmoves
    obtain ⟨v, rest, hs, hc⟩ := hmoves
    obtain rfl : v = 0 := by simpa [hs] using hzero
    rw [hc, if_pos rfl]

theorem counter_of_jump?_none (h : execute i m s = ⟨.ok o, m', t⟩)
    (hi : JumpingSet.jump? i = none) : Model.counter m' = (Model.counter m).advance := by
  have hmoves := execute_moves h
  rw [hi] at hmoves
  exact hmoves

theorem counter_of_passed (h : execute i m s = ⟨.ok o, m', t⟩) (hi : Jump.Passed i m) :
    Model.counter m' = (Model.counter m).advance := by
  obtain ⟨n, v, hj, hv, hne⟩ := hi
  have hmoves := execute_moves h
  rw [hj] at hmoves
  obtain ⟨w, rest, hs, hc⟩ := hmoves
  obtain rfl : w = v := by simpa [hs] using hv
  rw [hc, if_neg hne]

end Step

namespace Word

theorem toInt_advance (c : Word) : c.advance.toInt = min (c.toInt + 1) Int64.maxValue.toInt := by
  have hlo := c.le_toInt
  have hone : (1 : Word).toInt = 1 := by decide
  have hmax : Int64.maxValue.toInt = 2 ^ 63 - 1 := Int64.toInt_maxValue
  rw [advance, addClamp, toInt_ofIntClamp, hone, hmax, clamp]
  omega

/-- A jump leads to its target, except that two targets share the lowest counter. -/
theorem toInt_advance_jumpBias (n : Word) :
    n.jumpBias.advance.toInt = max (n.toInt - 1) (Int64.minValue.toInt + 1) := by
  have hlo := n.le_toInt
  have hhi := n.toInt_lt
  have htwo : (2 : Word).toInt = 2 := by decide
  have hmin : Int64.minValue.toInt = -2 ^ 63 := Int64.toInt_minValue
  have hmax : Int64.maxValue.toInt = 2 ^ 63 - 1 := Int64.toInt_maxValue
  rw [toInt_advance, jumpBias, subClamp, toInt_ofIntClamp, htwo, hmin, hmax, clamp]
  omega

end Word

namespace Program

variable {ι : Type}

def numbered? (p : Program ι) (n : Int) : Option ι :=
  if 1 ≤ n ∧ n ≤ p.code.size then p.code[n.toNat - 1]? else none

theorem fetch_of_nonneg (p : Program ι) {c : Word} (h : 0 ≤ c.toInt) :
    p.fetch c = p.code[c.toInt.toNat]? := by
  have hc : (0 : Word) ≤ c := Int64.le_iff_toInt_le.2 h
  simp [fetch, hc]

theorem fetch_of_neg (p : Program ι) {c : Word} (h : c.toInt < 0) : p.fetch c = none := by
  have hc : ¬(0 : Word) ≤ c := fun hle => absurd (Int64.le_iff_toInt_le.1 hle) (by simpa using h)
  simp [fetch, hc]

theorem fetch_advance_jumpBias (p : Program ι) (n : Word) :
    p.fetch n.jumpBias.advance = p.numbered? n.toInt := by
  have hland := n.toInt_advance_jumpBias
  have hmin : Int64.minValue.toInt = -2 ^ 63 := Int64.toInt_minValue
  unfold numbered?
  by_cases hlo : 1 ≤ n.toInt
  · have hindex : n.jumpBias.advance.toInt.toNat = n.toInt.toNat - 1 := by omega
    rw [fetch_of_nonneg p (by omega), hindex]
    by_cases hhi : n.toInt ≤ p.code.size
    · rw [if_pos ⟨hlo, hhi⟩]
    · rw [if_neg fun h => hhi h.2, Array.getElem?_eq_none (by omega)]
  -- below one, where the counter may have stopped short, it is negative all the same
  · rw [fetch_of_neg p (by omega), if_neg fun h => hlo h.1]

end Program

/-- A jump that is taken leads to the instruction with the number it names, or out of the
program if there is none. Every other instruction leads on to the next one. -/
theorem jumps_reach_their_targets (kind : Kind) {σ : Type} [Source σ] {i : kind.Instruction}
    {m m' : kind.Machine} {s t : σ} {o : Option Word} (h : execute i m s = ⟨.ok o, m', t⟩) :
    (∀ n, Jump.Taken i m n → ∀ p : Program kind.Instruction,
      p.fetch (Model.counter m') = p.numbered? n.toInt) ∧
    (InstructionSet.isJump i = false ∨ Jump.Passed i m →
      (Model.counter m').toInt = min ((Model.counter m).toInt + 1) Int64.maxValue.toInt) := by
  refine ⟨fun n hn p => ?_, fun hi => ?_⟩
  · rw [counter_of_taken h hn, p.fetch_advance_jumpBias]
  · rw [← Word.toInt_advance]
    rcases hi with hi | hi
    · have hnone : JumpingSet.jump? i = none := by simpa [kind.isJump_eq i] using hi
      rw [counter_of_jump?_none h hnone]
    · rw [counter_of_passed h hi]

def backJump : Program Kind.am0.Instruction :=
  ⟨#[(⟨.lit, 0⟩ : AM0.Instruction), (⟨.jmc, 1⟩ : AM0.Instruction)]⟩

def farAway (v : Word) : Kind.am0.Machine :=
  ({ counter := Int64.maxValue, stack := [v] } : AM0.Machine)

theorem backJump_reached_from_farAway :
    let input : List Word := []
    let jump : Kind.am0.Instruction := (⟨.jmc, 1⟩ : AM0.Instruction)
    let leave : Kind.am0.Instruction := (⟨.jmp, Int64.minValue⟩ : AM0.Instruction)
    (∃ m, execute jump (farAway 0) input = ⟨.ok none, m, input⟩ ∧
      backJump.fetch (Model.counter m) = some (⟨.lit, 0⟩ : AM0.Instruction)) ∧
    (∃ m, execute leave (farAway 0) input = ⟨.ok none, m, input⟩ ∧
      backJump.fetch (Model.counter m) = none) ∧
    (∃ m, execute jump (farAway 5) input = ⟨.ok none, m, input⟩ ∧
      (Model.counter m).toInt = Int64.maxValue.toInt) := by
  intro input jump leave
  refine ⟨⟨_, rfl, ?_⟩, ⟨_, rfl, ?_⟩, ⟨_, rfl, ?_⟩⟩
  · exact (jumps_reach_their_targets .am0 (i := jump) (m := farAway 0) (s := input) rfl).1 1
      (Or.inr ⟨rfl, rfl⟩) backJump
  · exact (jumps_reach_their_targets .am0 (i := leave) (m := farAway 0) (s := input) rfl).1
      Int64.minValue (Or.inl rfl) backJump
  · exact (jumps_reach_their_targets .am0 (i := jump) (m := farAway 5) (s := input) rfl).2
      (Or.inr ⟨1, 5, rfl, rfl, by decide⟩)

end AbstractMachines
