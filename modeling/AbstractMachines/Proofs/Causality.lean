import AbstractMachines.Proofs.Frames
import AbstractMachines.Proofs.Tapes

/-!
# Input that has not been read yet

No instruction looks at the input beyond the word that it reads. With more input
behind the given one, a run does the same until it reads past the end of what was
given, so it gives at least the same outputs, and it ends in the same way unless
it was the lack of input that ended it. The words that have been read are the
first ones, each in the cell that the instruction reading it names.
-/

namespace AbstractMachines

class CellModel (μ : Type) (ι : outParam Type) [Model μ ι] where
  cell? : μ → Word → Option Word
  target? : μ → ι → Option Word
  target_of_read {i : ι} {m n : μ} {a : Word} : Model.act i m = .read n a → target? m i = some a
  cell_of_read {i : ι} {m n : μ} {a : Word} (v : Word) :
    Model.act i m = .read n a → cell? (Model.deliver a v n) a = some v

namespace AM0

def Machine.target? (_ : Machine) (i : Instruction) : Option Word :=
  match i.opcode with
  | .access kind => if kind.puts then some i.payload else none
  | _ => none

theorem Machine.act_read {i : Instruction} {m n : Machine} {a : Word} (h : m.act i = .read n a) :
    i = ⟨.access .read, a⟩ ∧ n = m := by
  have hact := LawfulModel.act_orderly i m
  rw [model_act, h] at hact
  obtain ⟨hn, hread⟩ := hact
  obtain ⟨opcode, payload⟩ := i
  obtain rfl : opcode = .access .read := by simpa [ReadingSet.isRead] using hread
  simp only [act, access, Action.read.injEq] at h
  exact ⟨by rw [h.2], hn⟩

instance : CellModel Machine Instruction where
  cell? m a := m.memory.get? a
  target? := Machine.target?
  target_of_read h := by
    rw [(Machine.act_read h).1]
    rfl
  cell_of_read {i m n a} v _ := by
    change (n.memory.insert a v).get? a = some v
    simp [Memory.get?_insert]

end AM0

namespace AM1

instance : CellModel Machine Instruction where
  cell? := Machine.slot?
  target? := Machine.target?
  target_of_read h := (Machine.act_read_target h).1
  cell_of_read {i m n a} v h := by
    have hact := LawfulModel.act_orderly i m
    rw [h] at hact
    obtain ⟨rfl, -⟩ := hact
    exact Machine.slot?_assign_self (v := v) (Machine.act_read_target h).2

end AM1

instance (kind : Kind) : CellModel kind.Machine kind.Instruction :=
  match kind with
  | .am0 => inferInstanceAs (CellModel AM0.Machine AM0.Instruction)
  | .am1 => inferInstanceAs (CellModel AM1.Machine AM1.Instruction)

variable {μ ι σ : Type} [Model μ ι]

theorem execute_append (i : ι) (m : μ) (xs ys : List Word) :
    execute i m (xs ++ ys) =
      ⟨(execute i m xs).outcome, (execute i m xs).machine, (execute i m xs).input ++ ys⟩ ∨
    ∃ c, (execute i m xs).outcome = .error (.inputExhausted c) := by
  cases ha : Model.act i m with
  | done n o => exact Or.inl (by rw [execute_of_done ha, execute_of_done ha])
  | fail n e => exact Or.inl (by rw [execute_of_fail ha, execute_of_fail ha])
  | read n a =>
    cases xs with
    | nil => exact Or.inr ⟨Model.counter n, by rw [execute_of_starved ha rfl]⟩
    | cons v rest =>
      left
      rw [List.cons_append, execute_of_read ha rfl, execute_of_read ha rfl]

namespace Execution

def extend (ys : List Word) (x : Execution μ ι (List Word)) : Execution μ ι (List Word) :=
  { x with input := x.input ++ ys }

theorem outputs_extend (ys : List Word) (k : Nat) (x : Execution μ ι (List Word)) :
    x.outputs k <+: (x.extend ys).outputs k := by
  induction k generalizing x with
  | zero => exact List.nil_prefix
  | succ k ih =>
    have hp : (x.extend ys).pending? = x.pending? := rfl
    rcases x.next_cases with h | ⟨i, o, n, t, h, he⟩ | ⟨i, e, n, t, h, he⟩
    · rw [outputs_of_over h]
      exact List.nil_prefix
    · rcases execute_append i x.machine x.input ys with hx | ⟨c, hc⟩
      · rw [he] at hx
        rw [outputs_succ_of_ok h he, outputs_succ_of_ok (hp.trans h) hx,
          List.prefix_append_right_inj]
        exact ih ⟨x.program, n, t, false⟩
      · simp [he] at hc
    -- Where this run fails for lack of input, the longer one goes on and may write more.
    · rw [outputs_of_error h he]
      exact List.nil_prefix

theorem history_extend (ys : List Word) {k : Nat} {x : Execution μ ι (List Word)}
    (h : ∀ c, x.ending k ≠ .failed (.inputExhausted c)) :
    (x.extend ys).history k = x.history k ∧
      ((x.extend ys).after k).machine = (x.after k).machine ∧
      ((x.extend ys).after k).input = (x.after k).input ++ ys := by
  have hlink : Linked id Eq (fun s t => t = s ++ ys) x (x.extend ys) :=
    ⟨by simp [extend, Program.map], rfl, rfl, rfl⟩
  have hexec : ∀ i ∈ x.program.code, ∀ (m n : μ) (s t : List Word), m = n → t = s ++ ys →
      Reply.Alike Eq (fun s t => t = s ++ ys) (execute i m s) (execute (id i) n t) ∨
      ∃ e, (execute i m s).outcome = .error e ∧ ∃ c, e = .inputExhausted c := by
    rintro i - m _ s _ rfl rfl
    rcases execute_append i m s ys with hx | ⟨c, hc⟩
    · left
      rw [id, hx]
      exact ⟨rfl, rfl, rfl⟩
    · exact Or.inr ⟨_, hc, c, rfl⟩
  obtain ⟨hh, hl⟩ := history_lockStep (fun m n hm => by rw [hm]) k hlink hexec (by
    rintro i e hmem ⟨c, rfl⟩
    exact h c (ending_eq_failed_iff.2 ⟨i, hmem⟩))
  exact ⟨by simpa using hh, hl.machine.symm, hl.input⟩

theorem ending_extend (ys : List Word) {k : Nat} {x : Execution μ ι (List Word)}
    (hend : x.ending k ≠ .unfinished) (h : ∀ c, x.ending k ≠ .failed (.inputExhausted c))
    (j : Nat) : (x.extend ys).ending j = x.ending j := by
  have hj : ∀ c, x.ending j ≠ .failed (.inputExhausted c) := by
    intro c hc
    apply h c
    rcases Nat.le_total j k with hjk | hkj
    · rw [ending_mono hjk (by simp [hc]), hc]
    · rw [← ending_mono hkj hend, hc]
  rw [ending_eq_endingOf, ending_eq_endingOf, (history_extend ys hj).1]

theorem after_succ [Source σ] (k : Nat) (x : Execution μ ι σ) :
    x.after (k + 1) = (x.after k).step.2 := by
  induction k generalizing x with
  | zero => rfl
  | succ k ih => exact ih x.step.2

theorem step_read [ReadingSet ι] [LawfulModel μ] [CellModel μ ι] {x : Execution μ ι (List Word)}
    {i : ι} {o : Option Word} (hi : x.pending? = some i) (hread : ReadingSet.isRead i = true)
    (hok : x.step.1 = some (.ok o)) :
    ∃ a v, x.input.head? = some v ∧ CellModel.target? x.machine i = some a ∧
      CellModel.cell? x.step.2.machine a = some v := by
  rcases x.next_cases with h | ⟨j, o', n, t, h, he⟩ | ⟨j, e, n, t, h, he⟩
  · simp [h] at hi
  · obtain rfl : j = i := Option.some.inj (h.symm.trans hi)
    rcases execute_ok he with ⟨hr, -, -⟩ | ⟨-, -, a, v, ha, hs, rfl⟩
    · simp [hread] at hr
    · have hv := ListedSource.next_value x.input
      rw [hs] at hv
      rw [step_of_ok h he]
      exact ⟨a, v, hv.symm, CellModel.target_of_read ha, CellModel.cell_of_read v ha⟩
  · simp [step_of_error h he] at hok

end Execution

/-- A run with more input behind its own gives the outputs of that run and maybe
more. If the run ended for another reason than lack of input, so does the one with
more input, at the same step and in the same state. What a run has read is the
front of its input, and each word went where its instruction says. -/
theorem input_is_causal (kind : Kind) (p : Program kind.Instruction) (m : kind.Machine)
    (xs ys : List Word) :
    let x := Execution.start p m xs
    let y := Execution.start p m (xs ++ ys)
    (∀ k, x.outputs k <+: y.outputs k) ∧
    (∀ k, x.ending k ≠ .unfinished → (∀ c, x.ending k ≠ .failed (.inputExhausted c)) →
      (∀ j, y.ending j = x.ending j) ∧ y.history k = x.history k ∧
      y.outputs k = x.outputs k ∧ (y.after k).machine = (x.after k).machine ∧
      (y.after k).input = (x.after k).input ++ ys) ∧
    (∀ k, xs = xs.take (x.reads k) ++ (x.after k).input ∧ x.reads k ≤ xs.length ∧
      ∀ i o, (x.after k).pending? = some i → ReadingSet.isRead i = true →
        (x.after k).step.1 = some (.ok o) →
        ∃ a v, xs[x.reads k]? = some v ∧ CellModel.target? (x.after k).machine i = some a ∧
          CellModel.cell? (x.after (k + 1)).machine a = some v) := by
  intro x y
  have hy : y = x.extend ys := rfl
  refine ⟨fun k => ?_, fun k hend hexh => ?_, fun k => ?_⟩
  · exact x.outputs_extend ys k
  · obtain ⟨hh, hm, hi⟩ := Execution.history_extend ys hexh
    refine ⟨Execution.ending_extend ys hend hexh, hh, ?_, hm, hi⟩
    rw [hy, Execution.outputs, Execution.outputs, hh]
  · obtain ⟨taken, hw, hlen⟩ := x.words_consumed k
    have hxs : xs = taken ++ (x.after k).input := hw
    refine ⟨?_, ?_, fun i o hi hread hok => ?_⟩
    · rw [← hlen, hxs, List.take_left]
    · rw [← hlen, hxs, List.length_append]
      exact Nat.le_add_right _ _
    · obtain ⟨a, v, hv, ha, hcell⟩ := Execution.step_read hi hread hok
      refine ⟨a, v, ?_, ha, by rw [Execution.after_succ, hcell]⟩
      rw [← hlen, hxs, List.getElem?_append_right (Nat.le_refl _), Nat.sub_self,
        ← List.head?_eq_getElem?, hv]

def pointerEcho : Program Kind.am1.Instruction :=
  ⟨#[AM1.Instruction.indirect .read 1, AM1.Instruction.direct .write ⟨.globalBase, 2⟩]⟩

def pointerMachine : Kind.am1.Machine := ({ runtime := #[2, 0] } : AM1.Machine)

theorem pointerEcho_causal :
    let x := Execution.start pointerEcho pointerMachine [(5 : Word)]
    let y := Execution.start pointerEcho pointerMachine [(5 : Word), 6]
    x.ending 3 = .halted ∧ y.ending 3 = .halted ∧ y.outputs 3 = [5] ∧ (y.after 3).input = [6] ∧
      CellModel.cell? (x.after 1).machine 2 = some 5 := by
  intro x y
  have hend : x.ending 3 = .halted := rfl
  obtain ⟨-, hlonger, hread⟩ := input_is_causal .am1 pointerEcho pointerMachine [5] [6]
  have hdone : x.ending 3 ≠ .unfinished := by simp [hend]
  have hfed : ∀ c, x.ending 3 ≠ .failed (.inputExhausted c) := by simp [hend]
  obtain ⟨hsame, -, hout, -, hinput⟩ := hlonger 3 hdone hfed
  obtain ⟨a, v, hv, ha, hcell⟩ := (hread 0).2.2 _ none rfl rfl rfl
  obtain rfl : 5 = v := Option.some.inj hv
  obtain rfl : 2 = a := Option.some.inj ha
  exact ⟨hend, hsame 3, hout, hinput, hcell⟩

end AbstractMachines
