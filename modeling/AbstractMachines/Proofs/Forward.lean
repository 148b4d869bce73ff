import AbstractMachines.Proofs.History
import AbstractMachines.Proofs.Jumps
import Mathlib.Data.List.Perm.Subperm

/-!
# Programs that only jump forward

A program whose jumps lead to later instructions or out of it, and which has no
returns, ends. The counter grows with every step for as long as it stays in the
program, so the indices of the instructions that are executed, the trail of the
execution, increase, and there are no more of them than instructions. Once the
counter is outside it stays there.
-/

namespace AbstractMachines

def Jump.Ahead (k : Nat) : Option Jump → Prop
  | none => True
  | some (.always n) | some (.ifZero n) => k + 1 < n.toInt ∨ n.toInt ≤ 0
  | some .back => False

instance (k : Nat) (j : Option Jump) : Decidable (Jump.Ahead k j) :=
  match j with
  | none => .isTrue trivial
  | some (.always n) => inferInstanceAs (Decidable (k + 1 < n.toInt ∨ n.toInt ≤ 0))
  | some (.ifZero n) => inferInstanceAs (Decidable (k + 1 < n.toInt ∨ n.toInt ≤ 0))
  | some .back => .isFalse id

namespace Program

variable {ι : Type}

def Forward [JumpingSet ι] (p : Program ι) : Prop :=
  ∀ k i, p.code[k]? = some i → Jump.Ahead k (JumpingSet.jump? i)

theorem forward_iff [JumpingSet ι] {p : Program ι} :
    p.Forward ↔ ∀ k : Fin p.code.size, Jump.Ahead k (JumpingSet.jump? p.code[k]) := by
  constructor
  · intro hf k
    exact hf k _ (Array.getElem?_eq_getElem k.isLt)
  · intro hf k i hi
    obtain ⟨hk, rfl⟩ := Array.getElem?_eq_some_iff.1 hi
    exact hf ⟨k, hk⟩

instance [JumpingSet ι] (p : Program ι) : Decidable p.Forward := decidable_of_iff _ forward_iff.symm

/-- The length is a word, as that of any sequence in memory is: there is a counter for each
instruction and for the end. -/
def Addressable (p : Program ι) : Prop := (p.code.size : Int) ≤ Int64.maxValue.toInt

instance (p : Program ι) : Decidable p.Addressable := inferInstanceAs (Decidable (_ ≤ _))

theorem index_of_fetch {p : Program ι} {c : Word} {i : ι} (h : p.fetch c = some i) :
    c.toInt = c.toInt.toNat ∧ p.code[c.toInt.toNat]? = some i := by
  by_cases hc : 0 ≤ c.toInt
  · rw [p.fetch_of_nonneg hc] at h
    exact ⟨(Int.toNat_of_nonneg hc).symm, h⟩
  · rw [p.fetch_of_neg (Int.not_le.1 hc)] at h
    simp at h

theorem Addressable.toInt_advance {p : Program ι} (hp : p.Addressable) {k : Nat} {i : ι}
    (hi : p.code[k]? = some i) {c : Word} (hc : c.toInt = k) : c.advance.toInt = k + 1 := by
  have hk : k < p.code.size := (Array.getElem?_eq_some_iff.1 hi).1
  unfold Addressable at hp
  rw [Word.toInt_advance]
  omega

end Program

section Step

variable {μ ι σ : Type} [Model μ ι] [Source σ] [ReadingSet ι] [LawfulModel μ] [JumpingSet ι]
variable [HasCore μ] [LawfulCounter μ] [LawfulJumps μ]
variable {p : Program ι} {i : ι} {m m' : μ} {s t : σ} {o : Option Word} {k : Nat}

theorem Program.Forward.counter_lt (hf : p.Forward) (hp : p.Addressable)
    (hi : p.code[k]? = some i) (hk : (Model.counter m).toInt = k)
    (h : execute i m s = ⟨.ok o, m', t⟩) :
    (Model.counter m').toInt < 0 ∨ k < (Model.counter m').toInt := by
  have hnext := hp.toInt_advance hi hk
  have hland : ∀ n : Word, k + 1 < n.toInt ∨ n.toInt ≤ 0 →
      n.jumpBias.advance.toInt < 0 ∨ k < n.jumpBias.advance.toInt := by
    intro n hn
    have hmin : Int64.minValue.toInt = -2 ^ 63 := Int64.toInt_minValue
    rw [Word.toInt_advance_jumpBias]
    omega
  have hahead := hf k i hi
  have hmoves := execute_moves h
  generalize JumpingSet.jump? i = j at hahead hmoves
  match j with
  | none =>
    have hc : Model.counter m' = (Model.counter m).advance := hmoves
    rw [hc]
    omega
  | some (.always n) =>
    have hc : Model.counter m' = n.jumpBias.advance := hmoves
    rw [hc]
    exact hland n hahead
  | some (.ifZero n) =>
    obtain ⟨v, rest, -, hc⟩ := hmoves
    rw [hc]
    split
    · exact hland n hahead
    · omega
  | some .back => exact hahead.elim

theorem Program.Forward.counter_of_not_taken (hf : p.Forward) (hi : p.code[k]? = some i)
    (h : execute i m s = ⟨.ok o, m', t⟩) (hnot : ∀ n, ¬Jump.Taken i m n) :
    Model.counter m' = (Model.counter m).advance := by
  have hahead := hf k i hi
  have hmoves := execute_moves h
  match hj : JumpingSet.jump? i with
  | none => exact counter_of_jump?_none h hj
  | some (.always n) => exact absurd (Or.inl hj) (hnot n)
  | some (.ifZero n) =>
    rw [hj] at hmoves
    obtain ⟨v, rest, hs, hc⟩ := hmoves
    have hv : v ≠ 0 := fun hzero => hnot n (Or.inr ⟨hj, by rw [hs, hzero]; rfl⟩)
    rw [hc, if_neg hv]
  | some .back =>
    rw [hj] at hahead
    exact hahead.elim

end Step

namespace Execution

section Trail

variable {μ ι σ : Type} [Model μ ι] [Source σ] {x : Execution μ ι σ}

/-- The indices of the instructions that the first `k` steps execute. -/
def trail : Nat → Execution μ ι σ → List Nat
  | 0, _ => []
  | k + 1, x =>
    match x.pending? with
    | none => []
    | some _ => (Model.counter x.machine).toInt.toNat :: trail k x.step.2

theorem trail_of_over (h : x.pending? = none) (k : Nat) : trail k x = [] := by
  cases k with
  | zero => rfl
  | succ k => simp only [trail, h]

theorem trail_succ_of_ok {i : ι} {o : Option Word} {n : μ} {t : σ} (h : x.pending? = some i)
    (he : execute i x.machine x.input = ⟨.ok o, n, t⟩) (k : Nat) :
    trail (k + 1) x =
      (Model.counter x.machine).toInt.toNat :: trail k ⟨x.program, n, t, false⟩ := by
  simp only [trail, h, step_of_ok h he]

theorem trail_succ_of_error {i : ι} {e : RuntimeError} {n : μ} {t : σ} (h : x.pending? = some i)
    (he : execute i x.machine x.input = ⟨.error e, n, t⟩) (k : Nat) :
    trail (k + 1) x = [(Model.counter x.machine).toInt.toNat] := by
  simp only [trail, h, step_of_error h he]
  rw [trail_of_over (pending?_of_finished rfl)]

omit [Source σ] in
theorem fetch_of_pending? {i : ι} (h : x.pending? = some i) :
    x.program.fetch (Model.counter x.machine) = some i := by
  unfold pending? at h
  split at h
  · simp at h
  · exact h

omit [Source σ] in
theorem pending?_of_neg (h : (Model.counter x.machine).toInt < 0) : x.pending? = none := by
  unfold pending?
  split
  · rfl
  · exact x.program.fetch_of_neg h

omit [Source σ] in
theorem pending?_eq_none_iff (hrunning : x.finished = false)
    (hc : 0 ≤ (Model.counter x.machine).toInt) :
    x.pending? = none ↔ x.program.code.size ≤ (Model.counter x.machine).toInt := by
  rw [pending?, hrunning, x.program.fetch_of_nonneg hc]
  simp only [Bool.false_eq_true, if_false, Array.getElem?_eq_none_iff]
  omega

theorem history_eq_trail (k : Nat) (x : Execution μ ι σ) :
    (history k x).map (some ·.1) = (trail k x).map (x.program.code[·]?) := by
  induction k generalizing x with
  | zero => rfl
  | succ k ih =>
    rcases next_cases x with h | ⟨i, o, n, t, h, he⟩ | ⟨i, e, n, t, h, he⟩
    · rw [history_of_over h, trail_of_over h]
      rfl
    · have hi := (Program.index_of_fetch (fetch_of_pending? h)).2
      rw [history_succ_of_ok h he, trail_succ_of_ok h he, List.map_cons, List.map_cons, ih, hi]
    · have hi := (Program.index_of_fetch (fetch_of_pending? h)).2
      rw [history_succ_of_error h he, trail_succ_of_error h he, List.map_singleton,
        List.map_singleton, hi]

theorem length_history_eq (k : Nat) (x : Execution μ ι σ) :
    (history k x).length = (trail k x).length := by
  simpa using congrArg List.length (history_eq_trail k x)

theorem trail_lt_size (k : Nat) (x : Execution μ ι σ) :
    ∀ j ∈ trail k x, j < x.program.code.size := by
  intro j hj
  have hmem : x.program.code[j]? ∈ (history k x).map (some ·.1) := by
    rw [history_eq_trail]
    exact List.mem_map_of_mem hj
  obtain ⟨q, -, hq⟩ := List.mem_map.1 hmem
  exact (Array.getElem?_eq_some_iff.1 hq.symm).1

theorem ended_of_length_lt {k : Nat} (h : (history k x).length < k) :
    ending k x ≠ .unfinished ∧ (after k x).finished = true := by
  induction k generalizing x with
  | zero => simp at h
  | succ k ih =>
    rcases next_cases x with hx | ⟨i, o, n, t, hx, he⟩ | ⟨i, e, n, t, hx, he⟩
    · rw [ending_succ_of_over hx, after_succ_of_over hx]
      simp
    · rw [history_succ_of_ok hx he, List.length_cons] at h
      rw [ending_succ_of_ok hx he, after_succ_of_ok hx he]
      exact ih (by omega)
    · rw [ending_succ_of_error hx he, after_succ_of_error hx he]
      simp

end Trail

section Forward

variable {μ ι σ : Type} [Model μ ι] [Source σ] [ReadingSet ι] [LawfulModel μ] [JumpingSet ι]
variable [HasCore μ] [LawfulCounter μ] [LawfulJumps μ] {x : Execution μ ι σ}

theorem trail_increases (k : Nat) (hf : x.program.Forward) (hp : x.program.Addressable) :
    (trail k x).Pairwise (· < ·) ∧ ∀ j ∈ trail k x, (Model.counter x.machine).toInt ≤ j := by
  induction k generalizing x with
  | zero => simp [trail]
  | succ k ih =>
    rcases next_cases x with h | ⟨i, o, n, t, h, he⟩ | ⟨i, e, n, t, h, he⟩
    · simp [trail_of_over h]
    · obtain ⟨hc, hi⟩ := Program.index_of_fetch (fetch_of_pending? h)
      obtain ⟨hpair, hge⟩ := ih (x := ⟨x.program, n, t, false⟩) hf hp
      -- nothing follows a counter that has left the program, and later indices follow any other
      have hlater : ∀ j ∈ trail k ⟨x.program, n, t, false⟩,
          (Model.counter x.machine).toInt.toNat < j := by
        intro j hj
        rcases hf.counter_lt hp hi hc he with hneg | hlt
        · have hover : (⟨x.program, n, t, false⟩ : Execution μ ι σ).pending? = none :=
            pending?_of_neg hneg
          rw [trail_of_over hover] at hj
          simp at hj
        · have hle : (Model.counter n).toInt ≤ j := hge j hj
          omega
      rw [trail_succ_of_ok h he]
      refine ⟨List.pairwise_cons.2 ⟨hlater, hpair⟩, fun j hj => ?_⟩
      rcases List.mem_cons.1 hj with rfl | hj
      · omega
      · have hlt := hlater j hj
        omega
    · obtain ⟨hc, -⟩ := Program.index_of_fetch (fetch_of_pending? h)
      rw [trail_succ_of_error h he]
      refine ⟨List.pairwise_singleton _ _, fun j hj => ?_⟩
      obtain rfl := List.mem_singleton.1 hj
      omega

theorem length_history_le (k : Nat) (hf : x.program.Forward) (hp : x.program.Addressable) :
    (history k x).length ≤ x.program.code.size := by
  have hnodup : (trail k x).Nodup := (trail_increases k hf hp).1.imp Nat.ne_of_lt
  have hsubset : trail k x ⊆ List.range x.program.code.size :=
    fun j hj => List.mem_range.2 (trail_lt_size k x j hj)
  calc (history k x).length = (trail k x).length := length_history_eq k x
    _ ≤ (List.range x.program.code.size).length := (hnodup.subperm hsubset).length_le
    _ = x.program.code.size := List.length_range

theorem counter_after_rest (d : Nat) (hf : x.program.Forward) (hp : x.program.Addressable)
    (hrunning : x.finished = false)
    (hc : (Model.counter x.machine).toInt = x.program.code.size - d) (hd : d ≤ x.program.code.size)
    (hnot : ∀ k < d, ∀ i n, (x.after k).pending? = some i → ¬Jump.Taken i (x.after k).machine n)
    (hok : ∀ e, x.ending (d + 1) ≠ .failed e) :
    (Model.counter (x.after (d + 1)).machine).toInt = x.program.code.size := by
  -- `d` is the distance of the counter from the end, and each step makes it one less
  induction d generalizing x with
  | zero =>
    have hover : x.pending? = none := (pending?_eq_none_iff hrunning (by omega)).2 (by omega)
    rw [after_succ_of_over hover]
    simpa using hc
  | succ d ih =>
    rcases next_cases x with h | ⟨i, o, n, t, h, he⟩ | ⟨i, e, n, t, h, he⟩
    · have hle := (pending?_eq_none_iff hrunning (by omega)).1 h
      omega
    · obtain ⟨hindex, hi⟩ := Program.index_of_fetch (fetch_of_pending? h)
      have hnext : Model.counter n = (Model.counter x.machine).advance :=
        hf.counter_of_not_taken hi he fun n => hnot 0 (by omega) i n h
      have hadvance := hp.toInt_advance hi hindex
      rw [ending_succ_of_ok h he] at hok
      rw [after_succ_of_ok h he]
      refine ih (x := ⟨x.program, n, t, false⟩) hf hp rfl ?_ (Nat.le_of_succ_le hd)
        (fun k hk => ?_) hok
      · rw [hnext]
        simp only
        omega
      · have hlater := hnot (k + 1) (by omega)
        rwa [after_succ_of_ok h he] at hlater
    · exact absurd (ending_succ_of_error h he (d + 1)) (hok e)

end Forward
end Execution

/-- A program that only jumps forward ends after at most as many instructions as it has,
whatever it is started on. The instructions it executes are in the order of the program, each
of them once. If no jump is taken and nothing fails, the counter is at the end. -/
theorem forward_programs_end (kind : Kind) {σ : Type} [Source σ] {p : Program kind.Instruction}
    (hf : p.Forward) (hp : p.Addressable) (m : kind.Machine) (s : σ) :
    let x := Execution.start p m s
    let length := p.code.size
    (x.ending (length + 1) ≠ .unfinished ∧ (x.after (length + 1)).finished = true) ∧
    (∀ k, (x.history k).length ≤ length ∧ (x.trail k).Pairwise (· < ·) ∧
      (x.history k).map (some ·.1) = (x.trail k).map (p.code[·]?)) ∧
    ((∀ k < length, ∀ i n, (x.after k).pending? = some i → ¬Jump.Taken i (x.after k).machine n) →
      (∀ e, x.ending (length + 1) ≠ .failed e) →
      (Model.counter (x.after (length + 1)).machine).toInt = length) := by
  intro x length
  refine ⟨?_, fun k => ⟨?_, ?_, ?_⟩, fun hnot hok => ?_⟩
  · exact Execution.ended_of_length_lt
      (Nat.lt_succ_of_le (Execution.length_history_le (x := x) (length + 1) hf hp))
  · exact Execution.length_history_le (x := x) k hf hp
  · exact (Execution.trail_increases (x := x) k hf hp).1
  · exact Execution.history_eq_trail k x
  · have hstart : (Model.counter x.machine).toInt = 0 := by
      rw [show Model.counter x.machine = 0 from LawfulCounter.counter_setCounter 0 m]
      rfl
    have hrest : (Model.counter x.machine).toInt = x.program.code.size - length := by
      rw [hstart]
      exact (Int.sub_self _).symm
    exact Execution.counter_after_rest length hf hp rfl hrest (Nat.le_refl _) hnot hok

def detour : Program Kind.am0.Instruction :=
  ⟨#[(⟨.access .read, 1⟩ : AM0.Instruction), (⟨.access .load, 1⟩ : AM0.Instruction),
    (⟨.jmc, 5⟩ : AM0.Instruction), (⟨.access .write, 1⟩ : AM0.Instruction),
    (⟨.lit, 0⟩ : AM0.Instruction)]⟩

theorem detour_ends :
    let start (v : Word) := Execution.start detour (Model.initial : Kind.am0.Machine) [v]
    ((start 0).after 6).finished = true ∧ (start 0).trail 6 = [0, 1, 2, 4] ∧
    ((start 0).trail 6).Pairwise (· < ·) ∧
    ((start 7).after 6).finished = true ∧
    (Model.counter ((start 7).after 6).machine).toInt = 5 := by
  intro start
  have hf : detour.Forward := by decide +kernel
  have hp : detour.Addressable := by decide +kernel
  obtain ⟨⟨-, hzero⟩, hzero', -⟩ := forward_programs_end .am0 hf hp Model.initial [(0 : Word)]
  obtain ⟨⟨-, hseven⟩, -, hseven'⟩ := forward_programs_end .am0 hf hp Model.initial [(7 : Word)]
  refine ⟨hzero, by decide +kernel, (hzero' 6).2.1, hseven, hseven' ?_ ?_⟩
  · intro k hk i n hi
    match k, hk with
    | 0, _ | 1, _ | 3, _ | 4, _ =>
      obtain rfl := Option.some.inj hi
      rintro (hj | ⟨hj, -⟩) <;> cases hj
    | 2, _ =>
      obtain rfl := Option.some.inj hi
      rintro (hj | ⟨-, hv⟩)
      · cases hj
      · exact absurd hv (by decide +kernel)
  · intro e he
    have hend : (start 7).ending 6 = .halted := by decide +kernel
    cases hend.symm.trans he

end AbstractMachines
