import AbstractMachines.Proofs.Forward
import AbstractMachines.Proofs.SourceLines
import AbstractMachines.Proofs.Tapes

/-!
# One program after another

An instruction that does not jump does the same wherever the counter is, apart from the
counter it leaves and the one it reports. So a program without jumps can be placed
behind another one. Running the two in one text is running the first and then, on the
machine and the input that it leaves, the second. Only the counter tells the two ways
apart: it is further by the length of the first program, and so is the position that an
error carries.
-/

namespace AbstractMachines

def RuntimeError.relocate (c : Word) : RuntimeError → RuntimeError
  | stackUnderflow _ needed found => stackUnderflow c needed found
  | missingAddress _ a => missingAddress c a
  | inputExhausted _ => inputExhausted c
  | divisionByZero _ => divisionByZero c
  | stackOverflow _ limit => stackOverflow c limit

@[simp] theorem RuntimeError.counter_relocate (c : Word) (e : RuntimeError) :
    (e.relocate c).counter = c := by
  cases e <;> rfl

section

variable {μ ι σ : Type} [Model μ ι]

def Action.relocate (c : Word) : Action μ → Action μ
  | .done m o => .done (Model.setCounter c.advance m) o
  | .fail m e => .fail (Model.setCounter c m) (e.relocate c)
  | .read m a => .read (Model.setCounter c m) a

def Reply.relocate (c : Word) : Reply μ σ → Reply μ σ
  | ⟨.ok o, m, s⟩ => ⟨.ok o, Model.setCounter c.advance m, s⟩
  | ⟨.error e, m, s⟩ => ⟨.error (e.relocate c), Model.setCounter c m, s⟩

end

/-- Instructions that do not jump take the counter as it is and leave it one further. -/
class RelocatableModel (μ : Type) {ι : Type} [Model μ ι] [InstructionSet ι] : Prop where
  setCounter_counter (m : μ) : Model.setCounter (Model.counter m) m = m
  setCounter_setCounter (c d : Word) (m : μ) :
    Model.setCounter c (Model.setCounter d m) = Model.setCounter c m
  deliver_setCounter (a v c : Word) (m : μ) :
    Model.deliver a v (Model.setCounter c m) = Model.setCounter c.advance (Model.deliver a v m)
  act_setCounter {i : ι} (hi : InstructionSet.isJump i = false) (c : Word) (m : μ) :
    Model.act i (Model.setCounter c m) = (Model.act i m).relocate c

theorem Core.operate_relocate (op : Operator) (c : Word) (k : Core) :
    ({ k with counter := c } : Core).operate op =
      ((k.operate op).map fun k => { k with counter := c.advance }).mapError (·.relocate c) := by
  obtain ⟨counter, stack⟩ := k
  match stack with
  | [] => rfl
  | [_] => rfl
  | b :: a :: rest =>
    simp only [operate]
    cases op.eval? a b <;> rfl

theorem onCore_relocate {μ ι : Type} [Model μ ι] [HasCore μ] {f : Core → Except RuntimeError Core}
    {c : Word} {m : μ}
    (hf : ∀ k, f { k with counter := c } =
      ((f k).map fun k => { k with counter := c.advance }).mapError (·.relocate c))
    (hcore : HasCore.core (Model.setCounter c m) = { HasCore.core m with counter := c })
    (hput : ∀ k : Core, HasCore.withCore { k with counter := c.advance } (Model.setCounter c m) =
      Model.setCounter c.advance (HasCore.withCore k m)) :
    onCore f (Model.setCounter c m) = (onCore f m).relocate c := by
  unfold onCore
  rw [hcore, hf]
  cases f (HasCore.core m) with
  | ok k => exact congrArg (Action.done · none) (hput k)
  | error e => rfl

namespace AM0
namespace Machine

variable (c : Word) (m : Machine)

@[simp] theorem model_setCounter : Model.setCounter c m = { m with counter := c } := rfl

theorem access_setCounter (kind : Access) (a : Word) :
    (Model.setCounter c m).access kind a = (m.access kind a).relocate c := by
  obtain ⟨⟨counter, stack⟩, memory⟩ := m
  cases kind with
  | load => cases h : memory.get? a <;> simp only [access, model_setCounter, h] <;> rfl
  | store => cases stack <;> rfl
  | write => cases h : memory.get? a <;> simp only [access, model_setCounter, h] <;> rfl
  | read => rfl

end Machine

instance : RelocatableModel Machine where
  setCounter_counter _ := rfl
  setCounter_setCounter _ _ _ := rfl
  deliver_setCounter _ _ _ _ := rfl
  act_setCounter {i} hi c m := by
    obtain ⟨opcode, payload⟩ := i
    cases opcode with
    | operator op => exact onCore_relocate (Core.operate_relocate op c) rfl fun _ => rfl
    | access kind => exact Machine.access_setCounter c m kind payload
    | lit => rfl
    | jmp => cases hi
    | jmc => cases hi

end AM0

namespace AM1
namespace Machine

variable (c : Word) (m : Machine)

theorem access_setCounter (kind : Access) (a : Word) :
    (Model.setCounter c m).access kind a = (m.access kind a).relocate c := by
  have hslot : (Model.setCounter c m).slot? a = m.slot? a := rfl
  cases kind with
  | load =>
    simp only [access, hslot]
    cases m.slot? a <;> rfl
  | store =>
    have hstack : (Model.setCounter c m).stack = m.stack := rfl
    simp only [access, hslot, hstack]
    cases m.stack with
    | nil => rfl
    | cons v rest => cases m.slot? a <;> rfl
  | write =>
    simp only [access, hslot]
    cases m.slot? a <;> rfl
  | read =>
    simp only [access, hslot]
    cases m.slot? a <;> rfl

theorem accessIndirect_setCounter (kind : Access) (o : Word) :
    (Model.setCounter c m).accessIndirect kind o = (m.accessIndirect kind o).relocate c := by
  have hstack : (Model.setCounter c m).stack = m.stack := rfl
  have hpointer : (Model.setCounter c m).slot? ((Model.setCounter c m).reference.addClamp o) =
      m.slot? (m.reference.addClamp o) := rfl
  simp only [accessIndirect, hstack, hpointer]
  split
  · rfl
  · cases m.slot? (m.reference.addClamp o) with
    | none => rfl
    | some a => exact access_setCounter c m kind a

theorem pushSlot_setCounter : (Model.setCounter c m).pushSlot = m.pushSlot.relocate c := by
  have hstack : (Model.setCounter c m).stack = m.stack := rfl
  have hroom : (Model.setCounter c m).HasRoom 1 ↔ m.HasRoom 1 := Iff.rfl
  simp only [pushSlot, hstack, hroom]
  cases m.stack with
  | nil => rfl
  | cons v rest =>
    simp only
    split <;> rfl

theorem init_setCounter (n : Word) : (Model.setCounter c m).init n = (m.init n).relocate c := by
  have hroom : (Model.setCounter c m).HasRoom n.toNatClampNeg ↔ m.HasRoom n.toNatClampNeg := Iff.rfl
  simp only [init, hroom]
  split <;> rfl

end Machine

instance : RelocatableModel Machine where
  setCounter_counter _ := rfl
  setCounter_setCounter _ _ _ := rfl
  deliver_setCounter _ _ _ _ := rfl
  act_setCounter {i} hi c m := by
    cases i with
    | operator op => exact onCore_relocate (Core.operate_relocate op c) rfl fun _ => rfl
    | direct kind a => exact Machine.access_setCounter c m kind (m.resolve a)
    | indirect kind o => exact Machine.accessIndirect_setCounter c m kind o
    | lit n => rfl
    | loada a => rfl
    | push => exact Machine.pushSlot_setCounter c m
    | jmp n => cases hi
    | jmc n => cases hi
    | call n => cases hi
    | init n => exact Machine.init_setCounter c m n
    | ret n => cases hi

end AM1

instance (kind : Kind) : RelocatableModel kind.Machine :=
  match kind with
  | .am0 => inferInstanceAs (RelocatableModel AM0.Machine)
  | .am1 => inferInstanceAs (RelocatableModel AM1.Machine)

section Step

variable {μ ι σ : Type} [Model μ ι] [Source σ] [InstructionSet ι] [RelocatableModel μ]
variable [LawfulCounter μ] {i : ι} {m n : μ} {s t : σ}

theorem execute_setCounter (hi : InstructionSet.isJump i = false) (c : Word) (m : μ) (s : σ) :
    execute i (Model.setCounter c m) s = (execute i m s).relocate c := by
  have hact := RelocatableModel.act_setCounter hi c m
  match ha : Model.act i m with
  | .done n o =>
    rw [ha] at hact
    rw [execute_of_done ha, execute_of_done hact]
    rfl
  | .fail n e =>
    rw [ha] at hact
    rw [execute_of_fail ha, execute_of_fail hact]
    rfl
  | .read n a =>
    rw [ha] at hact
    match hs : Source.next s with
    | (some v, t) =>
      rw [execute_of_read ha hs, execute_of_read hact hs, RelocatableModel.deliver_setCounter]
      rfl
    | (none, t) =>
      rw [execute_of_starved ha hs, execute_of_starved hact hs, LawfulCounter.counter_setCounter]
      rfl

theorem execute_relocate_counter (hi : InstructionSet.isJump i = false) (m : μ) (s : σ) :
    (execute i m s).relocate (Model.counter m) = execute i m s := by
  rw [← execute_setCounter hi, RelocatableModel.setCounter_counter]

theorem counter_of_ok {o : Option Word} (hi : InstructionSet.isJump i = false)
    (h : execute i m s = ⟨.ok o, n, t⟩) : Model.counter n = (Model.counter m).advance := by
  have hself := execute_relocate_counter hi m s
  rw [h] at hself
  have hn : Model.setCounter (Model.counter m).advance n = n := congrArg Reply.machine hself
  calc Model.counter n = Model.counter (Model.setCounter (Model.counter m).advance n) := by rw [hn]
    _ = (Model.counter m).advance := LawfulCounter.counter_setCounter _ _

theorem counter_of_error {e : RuntimeError} (hi : InstructionSet.isJump i = false)
    (h : execute i m s = ⟨.error e, n, t⟩) : e.counter = Model.counter m := by
  have hself := execute_relocate_counter hi m s
  rw [h] at hself
  have he : e.relocate (Model.counter m) = e :=
    Except.error.inj (congrArg Reply.outcome hself)
  rw [← e.counter_relocate (Model.counter m), he]

end Step

namespace Program

variable {ι : Type} {p q : Program ι}

theorem fetch_append_left {c : Word} {i : ι} (h : p.fetch c = some i) :
    (Program.mk (p.code ++ q.code)).fetch c = some i := by
  obtain ⟨hc, hi⟩ := index_of_fetch h
  have hk : c.toInt.toNat < p.code.size := (Array.getElem?_eq_some_iff.1 hi).1
  rw [fetch_of_nonneg _ (by omega), Array.getElem?_append_left hk, hi]

theorem fetch_append_right {c d : Word} (hc : 0 ≤ c.toInt) (hd : d.toInt = c.toInt + p.code.size) :
    (Program.mk (p.code ++ q.code)).fetch d = q.fetch c := by
  have hindex : d.toInt.toNat - p.code.size = c.toInt.toNat := by omega
  rw [fetch_of_nonneg _ (by omega), fetch_of_nonneg _ hc, Array.getElem?_append_right (by omega),
    hindex]

theorem Addressable.left (h : (Program.mk (p.code ++ q.code)).Addressable) : p.Addressable := by
  unfold Addressable at h ⊢
  rw [Array.size_append] at h
  omega

theorem Addressable.right (h : (Program.mk (p.code ++ q.code)).Addressable) : q.Addressable := by
  unfold Addressable at h ⊢
  rw [Array.size_append] at h
  omega

end Program

namespace Execution

inductive Ending.Behind (d : Nat) : Ending → Ending → Prop where
  | halted : Behind d .halted .halted
  | failed {e : RuntimeError} {c : Word} (h : c.toInt = e.counter.toInt + d) :
      Behind d (.failed e) (.failed (e.relocate c))
  | unfinished : Behind d .unfinished .unfinished

section Run

variable {μ ι σ : Type} [Model μ ι] [Source σ] {x : Execution μ ι σ} {i : ι} {n : μ} {t : σ}

theorem run_succ_of_over (h : x.pending? = none) (emit : Word → σ → σ) (fuel : Nat) :
    x.run emit (fuel + 1) = (.halted, ⟨x.program, x.machine, x.input, true⟩) := by
  rw [run, step_of_over h]

theorem run_succ_of_ok {o : Option Word} (h : x.pending? = some i)
    (he : execute i x.machine x.input = ⟨.ok o, n, t⟩) (emit : Word → σ → σ) (fuel : Nat) :
    x.run emit (fuel + 1) = run emit fuel ⟨x.program, n, o.elim t (emit · t), false⟩ := by
  rw [run, step_of_ok h he]
  cases o <;> rfl

theorem run_succ_of_error {e : RuntimeError} (h : x.pending? = some i)
    (he : execute i x.machine x.input = ⟨.error e, n, t⟩) (emit : Word → σ → σ) (fuel : Nat) :
    x.run emit (fuel + 1) = (.failed e, ⟨x.program, n, t, true⟩) := by
  rw [run, step_of_error h he]

def followedBy (q : Program ι) (x : Execution μ ι σ) : Execution μ ι σ :=
  ⟨⟨x.program.code ++ q.code⟩, x.machine, x.input, false⟩

def behind (p : Program ι) (c : Word) (x : Execution μ ι σ) : Execution μ ι σ :=
  ⟨⟨p.code ++ x.program.code⟩, Model.setCounter c x.machine, x.input, x.finished⟩

end Run

section

variable {μ ι σ : Type} [Model μ ι] [Source σ] [InstructionSet ι] [RelocatableModel μ]
variable [LawfulCounter μ] {emit : Word → σ → σ} {x : Execution μ ι σ}

omit [Source σ] [InstructionSet ι] [RelocatableModel μ] in
theorem pending?_behind {p : Program ι} {c : Word} (hm : 0 ≤ (Model.counter x.machine).toInt)
    (hc : c.toInt = (Model.counter x.machine).toInt + p.code.size) :
    (x.behind p c).pending? = x.pending? := by
  simp only [pending?, behind, LawfulCounter.counter_setCounter]
  rw [Program.fetch_append_right hm hc]

theorem run_followedBy (q : Program ι) (d : Nat)
    (hfree : ∀ i ∈ x.program.code, InstructionSet.isJump i = false) (hp : x.program.Addressable)
    (hrunning : x.finished = false)
    (hc : (Model.counter x.machine).toInt = x.program.code.size - d) (hd : d ≤ x.program.code.size)
    {a : Nat} (hhalt : (x.run emit a).1 = .halted) :
    let y := (x.run emit a).2
    y.program = x.program ∧ (Model.counter y.machine).toInt = x.program.code.size ∧
    ∀ b, (x.followedBy q).run emit (d + b) = (y.followedBy q).run emit b := by
  -- `d` is the distance of the counter from the end of the program
  induction d generalizing x a with
  | zero =>
    have hover : x.pending? = none := (pending?_eq_none_iff hrunning (by omega)).2 (by omega)
    cases a with
    | zero => cases hhalt
    | succ a =>
      rw [run_succ_of_over hover]
      refine ⟨rfl, by simpa using hc, fun b => ?_⟩
      rw [Nat.zero_add]
      rfl
  | succ d ih =>
    cases a with
    | zero => cases hhalt
    | succ a =>
      rcases next_cases x with h | ⟨i, o, n, t, h, he⟩ | ⟨i, e, n, t, h, he⟩
      · have hle := (pending?_eq_none_iff hrunning (by omega)).1 h
        omega
      · obtain ⟨hindex, hcode⟩ := Program.index_of_fetch (fetch_of_pending? h)
        have hnext := counter_of_ok (hfree i (mem_of_pending? h)) he
        have hadvance := hp.toInt_advance hcode hindex
        have hwhole : (x.followedBy q).pending? = some i :=
          Program.fetch_append_left (fetch_of_pending? h)
        rw [run_succ_of_ok h he] at hhalt ⊢
        obtain ⟨hprogram, hend, hrest⟩ :=
          ih (x := ⟨x.program, n, o.elim t (emit · t), false⟩) hfree hp rfl
            (by simp only [hnext]; omega) (Nat.le_of_succ_le hd) hhalt
        refine ⟨hprogram, hend, fun b => ?_⟩
        rw [Nat.add_right_comm, run_succ_of_ok hwhole he]
        exact hrest b
      · rw [run_succ_of_error h he] at hhalt
        cases hhalt

theorem run_behind {p : Program ι} (fuel : Nat)
    (hfree : ∀ i ∈ x.program.code, InstructionSet.isJump i = false)
    (hp : (Program.mk (p.code ++ x.program.code)).Addressable) {c : Word}
    (hm : 0 ≤ (Model.counter x.machine).toInt)
    (hc : c.toInt = (Model.counter x.machine).toInt + p.code.size) :
    Ending.Behind p.code.size (x.run emit fuel).1 ((x.behind p c).run emit fuel).1 ∧
    ∃ d, ((x.behind p c).run emit fuel).2 = (x.run emit fuel).2.behind p d := by
  induction fuel generalizing x c with
  | zero => exact ⟨.unfinished, c, rfl⟩
  | succ fuel ih =>
    have hsame := pending?_behind hm hc
    rcases next_cases x with h | ⟨i, o, n, t, h, he⟩ | ⟨i, e, n, t, h, he⟩
    · rw [run_succ_of_over h, run_succ_of_over (hsame.trans h)]
      exact ⟨.halted, c, rfl⟩
    · have hi := hfree i (mem_of_pending? h)
      have hmoved : execute i (x.behind p c).machine x.input =
          ⟨.ok o, Model.setCounter c.advance n, t⟩ := by
        rw [behind, execute_setCounter hi, he]
        rfl
      -- both counters are inside their programs, so neither of them stops
      obtain ⟨hindex, hcode⟩ := Program.index_of_fetch (fetch_of_pending? h)
      have hadvance := hp.right.toInt_advance hcode hindex
      have hwhole := Program.index_of_fetch (fetch_of_pending? (hsame.trans h))
      rw [behind, LawfulCounter.counter_setCounter] at hwhole
      have hadvance' := hp.toInt_advance hwhole.2 hwhole.1
      have hnext := counter_of_ok hi he
      rw [run_succ_of_ok h he, run_succ_of_ok (hsame.trans h) hmoved]
      exact ih (x := ⟨x.program, n, o.elim t (emit · t), false⟩) hfree hp
        (by simp only [hnext]; omega) (by simp only [hnext]; omega)
    · have hi := hfree i (mem_of_pending? h)
      have hmoved : execute i (x.behind p c).machine x.input =
          ⟨.error (e.relocate c), Model.setCounter c n, t⟩ := by
        rw [behind, execute_setCounter hi, he]
        rfl
      rw [run_succ_of_error h he, run_succ_of_error (hsame.trans h) hmoved]
      refine ⟨.failed ?_, c, rfl⟩
      rw [counter_of_error hi he, hc]

end

theorem run_append {μ ι σ : Type} [Model μ ι] [Source σ] [InstructionSet ι] [RelocatableModel μ]
    [LawfulCounter μ] {emit : Word → σ → σ} {p q : Program ι}
    (hfree : ∀ i ∈ p.code ++ q.code, InstructionSet.isJump i = false)
    (hsize : (Program.mk (p.code ++ q.code)).Addressable) {m : μ} {s : σ} {a : Nat}
    (hhalt : ((start p m s).run emit a).1 = .halted) (b : Nat) :
    let first := ((start p m s).run emit a).2
    let second := (start q first.machine first.input).run emit b
    let whole := (start ⟨p.code ++ q.code⟩ m s).run emit (p.code.size + b)
    Ending.Behind p.code.size second.1 whole.1 ∧ ∃ c, whole.2 = second.2.behind p c := by
  intro first second whole
  have hfront : ∀ i ∈ p.code, InstructionSet.isJump i = false :=
    fun i hi => hfree i (Array.mem_append_left _ hi)
  have hback : ∀ i ∈ q.code, InstructionSet.isJump i = false :=
    fun i hi => hfree i (Array.mem_append_right _ hi)
  have hstart (n : μ) : (Model.counter (Model.setCounter 0 n)).toInt = 0 := by
    rw [LawfulCounter.counter_setCounter]
    rfl
  obtain ⟨hprogram, hend, hrest⟩ := run_followedBy (x := start p m s) q p.code.size hfront
    hsize.left rfl ((hstart m).trans (Int.sub_self _).symm) (Nat.le_refl _) hhalt
  -- the first program leaves the counter where the second one begins
  have hplace : first.followedBy q =
      (start q first.machine first.input).behind p (Model.counter first.machine) := by
    have hp : first.program = p := hprogram
    simp only [followedBy, behind, start, hp, RelocatableModel.setCounter_setCounter,
      RelocatableModel.setCounter_counter]
  have hwhole : whole = (first.followedBy q).run emit b := hrest b
  have hat : (Model.counter first.machine).toInt = p.code.size := hend
  rw [hwhole, hplace]
  refine run_behind (x := start q first.machine first.input) b hback hsize ?_ ?_
  · exact Int.le_of_eq (hstart first.machine).symm
  · rw [hat, start, hstart, Int.zero_add]

end Execution

theorem Program.forward_of_jumpFree {kind : Kind} {p : Program kind.Instruction}
    (h : ∀ i ∈ p.code, InstructionSet.isJump i = false) : p.Forward := by
  intro k i hi
  have hfree := h i (Array.mem_of_getElem? hi)
  have hnone : JumpingSet.jump? i = none := by simpa [kind.isJump_eq i] using hfree
  rw [hnone]
  trivial

namespace Session

theorem halted_of_verdict {α : Type} {a b : α} {ending : Execution.Ending}
    (h : verdict a ending = some (.ok b)) : ending = .halted := by
  cases ending with
  | halted => rfl
  | failed e => cases h
  | unfinished => cases h

variable {d : Nat} {alone placed : Execution.Ending}

theorem verdict_ok_behind (h : Execution.Ending.Behind d alone placed)
    (hok : verdict () alone = some (.ok ())) : verdict () placed = some (.ok ()) := by
  cases h with
  | halted => rfl
  | failed hc => cases hok
  | unfinished => cases hok

theorem verdict_error_behind {e : SessionError}
    (h : Execution.Ending.Behind d alone placed) (herror : verdict () alone = some (.error e)) :
    ∃ e' c, e = .runtime e' ∧ verdict () placed = some (.error (.runtime (e'.relocate c))) ∧
      c.toInt = e'.counter.toInt + d := by
  cases h with
  | halted => cases herror
  | @failed e c hc =>
    cases herror
    exact ⟨e, c, rfl, rfl, hc⟩
  | unfinished => cases herror

end Session

/-- Running a text without jumps and then, on the machine and the input it leaves, another one
is running the two as one text: it writes the outputs of the first run and then those of the
second, and leaves the same input and the same machine up to the counter. An error of the second
run is reported further on by the length of the first program. If `b` is more than the length of
the second program, its run ends. -/
theorem consecutive_runs_compose (kind : Kind) {front rest : List Char}
    {p q : Program kind.Instruction} (hfront : Text.Terminated front)
    (hp : Program.parse front = .ok p) (hq : Program.parse rest = .ok q)
    (hfree : ∀ i ∈ p.code ++ q.code, InstructionSet.isJump i = false)
    (hsize : (Program.mk (p.code ++ q.code)).Addressable) (m : kind.Machine) (xs : List Word)
    (a b : Nat) :
    let first := Session.run a Tape.emit front m ⟨xs, #[]⟩
    let second := Session.run b Tape.emit rest first.machine ⟨first.input.unread, #[]⟩
    let whole := Session.run (p.code.size + b) Tape.emit (front ++ rest) m ⟨xs, #[]⟩
    first.result = some (.ok ()) →
      whole.input.written = first.input.written ++ second.input.written ∧
      whole.input.unread = second.input.unread ∧
      (∃ c, whole.machine = Model.setCounter c second.machine) ∧
      (second.result = some (.ok ()) → whole.result = some (.ok ())) ∧
      (∀ e, second.result = some (.error e) → ∃ e' c, e = .runtime e' ∧
        whole.result = some (.error (.runtime (e'.relocate c))) ∧
        c.toInt = e'.counter.toInt + p.code.size) ∧
      (q.code.size < b → second.result ≠ none) := by
  intro first second whole hok
  let r := ((Execution.start p m (Tape.mk xs #[])).run Tape.emit a).2
  let y := Execution.start q r.machine r.input.unread
  let w := (Execution.start ⟨p.code ++ q.code⟩ m (Tape.mk xs #[])).run Tape.emit (p.code.size + b)
  have hfirst : first = _ := Session.run_of_parse hp a Tape.emit m ⟨xs, #[]⟩
  have hsecond : second = ⟨Session.verdict () (y.ending b), (y.after b).machine,
      ⟨(y.after b).input, (y.outputs b).toArray⟩⟩ := by
    have hrun : (Execution.start q r.machine (Tape.mk r.input.unread #[])).run Tape.emit b = _ :=
      y.run_onTape b #[]
    simp only [second, hfirst]
    rw [Session.run_of_parse hq, hrun, Array.empty_append]
    rfl
  have hwhole : whole = ⟨Session.verdict () w.1, w.2.machine, w.2.input⟩ :=
    Session.run_of_parse (Program.parse_append_of_ok_ok hfront hp hq) (p.code.size + b) Tape.emit m
      ⟨xs, #[]⟩
  -- what the first run has written stays in front of what the second one writes
  have hagain : (Execution.start q r.machine r.input).run Tape.emit b =
      (y.ending b, (y.after b).onTape (r.input.written ++ (y.outputs b).toArray)) :=
    y.run_onTape b r.input.written
  rw [hfirst] at hok
  obtain ⟨hending, c, hstate⟩ :=
    Execution.run_append hfree hsize (Session.halted_of_verdict hok) b
  change Execution.Ending.Behind _ ((Execution.start q r.machine r.input).run Tape.emit b).1 w.1
    at hending
  change w.2 = ((Execution.start q r.machine r.input).run Tape.emit b).2.behind p c at hstate
  rw [hagain] at hending hstate
  rw [hwhole, hsecond, hfirst, hstate]
  refine ⟨rfl, rfl, ⟨c, rfl⟩, Session.verdict_ok_behind hending,
    fun e => Session.verdict_error_behind hending, fun hb => ?_⟩
  have hforward : q.Forward :=
    Program.forward_of_jumpFree fun i hi => hfree i (Array.mem_append_right _ hi)
  have hlength := y.length_history_le b hforward hsize.right
  have hended := (Execution.ended_of_length_lt (Nat.lt_of_le_of_lt hlength hb)).1
  exact (Session.verdict_ne_none_iff () _).2 hended

def echoText : List Char := "INIT 1\nREAD(global,1)\nWRITE(global,1)\n".toList

def echoProgram : Program Kind.am1.Instruction :=
  ⟨#[(.init 1 : AM1.Instruction), (.direct .read ⟨.globalBase, 1⟩ : AM1.Instruction),
    (.direct .write ⟨.globalBase, 1⟩ : AM1.Instruction)]⟩

def shareText : List Char :=
  "READ(global,1)\nLIT 7\nLOAD(global,1)\nDIV\nSTORE(global,1)\nWRITE(global,1)".toList

def shareProgram : Program Kind.am1.Instruction :=
  ⟨#[(.direct .read ⟨.globalBase, 1⟩ : AM1.Instruction), (.lit 7 : AM1.Instruction),
    (.direct .load ⟨.globalBase, 1⟩ : AM1.Instruction), (.operator .div : AM1.Instruction),
    (.direct .store ⟨.globalBase, 1⟩ : AM1.Instruction),
    (.direct .write ⟨.globalBase, 1⟩ : AM1.Instruction)]⟩

theorem echo_then_share :
    let whole (xs : List Word) :=
      Session.run (echoProgram.code.size + 9) Tape.emit (echoText ++ shareText)
        (Model.initial : Kind.am1.Machine) ⟨xs, #[]⟩
    (whole [5, 2]).input.written = #[5, 3] ∧ (whole [5, 2]).result = some (.ok ()) ∧
    ∃ c : Word, (whole [5, 0]).result = some (.error (.runtime (.divisionByZero c))) ∧
      c.toInt = 6 := by
  intro whole
  have hecho : Program.parse echoText = .ok echoProgram := by rfl
  have hshare : Program.parse shareText = .ok shareProgram := by rfl
  have hfree : ∀ i ∈ echoProgram.code ++ shareProgram.code, InstructionSet.isJump i = false := by
    decide +kernel
  have hsize : (Program.mk (echoProgram.code ++ shareProgram.code)).Addressable := by
    decide +kernel
  have hcompose (xs : List Word) :=
    consecutive_runs_compose .am1 (Or.inr rfl) hecho hshare hfree hsize Model.initial xs 9 9
  obtain ⟨hwritten, -, -, hok, -⟩ := hcompose [5, 2] (by decide +kernel)
  obtain ⟨-, -, -, -, herror, -⟩ := hcompose [5, 0] (by decide +kernel)
  obtain ⟨e, c, he, hresult, hc⟩ := herror (.runtime (.divisionByZero 3)) (by decide +kernel)
  cases he
  dsimp only [whole]
  refine ⟨?_, hok (by decide +kernel), c, hresult, hc.trans (by decide +kernel)⟩
  rw [hwritten]
  decide +kernel

end AbstractMachines
