import AbstractMachines.Proofs.History

/-!
# Pulling values out of an execution

Asking an execution for its next value runs instructions until one of them has an
answer to give: a value, an error, or that there are no more instructions. The steps
before that one all succeed without a value, and none is taken after it. An answer
that is not a success is the last one: from then on nothing is executed, whichever
way the execution is asked. A run that ends is a loop that asks for value after value
and hands each of them on.
-/

namespace AbstractMachines
namespace Execution

def Pulled.answer? : Pulled → Option (Option Outcome)
  | .value v => some (some (.ok (some v)))
  | .failed e => some (some (.error e))
  | .over => some none
  | .unfinished => none

def Success (a : Option Outcome) : Prop := ∃ o, a = some (.ok o)

variable {μ ι σ : Type} [Model μ ι] [Source σ] {x y z : Execution μ ι σ} {a : Option Outcome}

/-- Asked for its next value, `x` answers `a` and is then `y`, given enough instructions. -/
def Pulls (x : Execution μ ι σ) (a : Option Outcome) (y : Execution μ ι σ) : Prop :=
  ∃ fuel p, x.next fuel = (p, y) ∧ p.answer? = some a

def Silent (n : Nat) (x : Execution μ ι σ) : Prop := ∀ k < n, (x.after k).step.1 = some (.ok none)

theorem silent_succ {n : Nat} : Silent (n + 1) x ↔ x.step.1 = some (.ok none) ∧ Silent n x.step.2 := by
  constructor
  · intro h
    exact ⟨h 0 (by omega), fun k hk => h (k + 1) (by omega)⟩
  · rintro ⟨h, hrest⟩ k hk
    cases k with
    | zero => exact h
    | succ k => exact hrest k (by omega)

theorem next_of_silent (h : x.step.1 = some (.ok none)) (fuel : Nat) :
    x.next (fuel + 1) = x.step.2.next fuel := by
  rcases hs : x.step with ⟨a, y⟩
  obtain rfl : a = some (.ok none) := by rw [← h, hs]
  simp only [next, hs]

theorem next_of_answer (h : x.step.1 ≠ some (.ok none)) (fuel : Nat) :
    ∃ p, x.next (fuel + 1) = (p, x.step.2) ∧ p.answer? = some x.step.1 := by
  rcases hs : x.step with ⟨_ | e | _ | v, y⟩
  · exact ⟨.over, by simp only [next, hs], rfl⟩
  · exact ⟨.failed e, by simp only [next, hs], rfl⟩
  · simp [hs] at h
  · exact ⟨.value v, by simp only [next, hs], rfl⟩

theorem pos_of_answer {fuel : Nat} {p : Pulled} (hp : x.next fuel = (p, y))
    (ha : p.answer? = some a) : ∃ k, fuel = k + 1 := by
  cases fuel with
  | zero =>
    obtain rfl : .unfinished = p := (Prod.mk.inj hp).1
    simp [Pulled.answer?] at ha
  | succ k => exact ⟨k, rfl⟩

theorem pulls_of_silent (h : x.step.1 = some (.ok none)) : Pulls x a y ↔ Pulls x.step.2 a y := by
  constructor
  · rintro ⟨fuel, p, hp, ha⟩
    obtain ⟨k, rfl⟩ := pos_of_answer hp ha
    exact ⟨k, p, by rw [← hp, next_of_silent h], ha⟩
  · rintro ⟨fuel, p, hp, ha⟩
    exact ⟨fuel + 1, p, by rw [← hp, next_of_silent h], ha⟩

theorem pulls_of_answer (h : x.step.1 ≠ some (.ok none)) : Pulls x a y ↔ x.step = (a, y) := by
  constructor
  · rintro ⟨fuel, p, hp, ha⟩
    obtain ⟨k, rfl⟩ := pos_of_answer hp ha
    obtain ⟨q, hq, hb⟩ := next_of_answer h k
    obtain ⟨rfl, hy⟩ := Prod.mk.inj (hp.symm.trans hq)
    exact Prod.ext (Option.some.inj (hb.symm.trans ha)) hy.symm
  · intro hs
    obtain ⟨p, hp, ha⟩ := next_of_answer h 0
    exact ⟨1, p, by rw [hp, hs], by rw [ha, hs]⟩

theorem pulls_iff :
    Pulls x a y ↔ a ≠ some (.ok none) ∧ ∃ n, Silent n x ∧ (x.after n).step = (a, y) := by
  constructor
  · rintro ⟨fuel, p, hp, ha⟩
    induction fuel generalizing x with
    | zero => simpa using pos_of_answer hp ha
    | succ fuel ih =>
      by_cases h : x.step.1 = some (.ok none)
      · rw [next_of_silent h] at hp
        obtain ⟨hne, n, hsilent, hs⟩ := ih hp
        exact ⟨hne, n + 1, silent_succ.2 ⟨h, hsilent⟩, hs⟩
      · have hs := (pulls_of_answer h).1 ⟨fuel + 1, p, hp, ha⟩
        rw [hs] at h
        exact ⟨h, 0, by simp [Silent], hs⟩
  · rintro ⟨hne, n, hsilent, hs⟩
    induction n generalizing x with
    | zero =>
      have hstep : x.step = (a, y) := hs
      exact (pulls_of_answer (by rwa [hstep])).2 hstep
    | succ n ih =>
      obtain ⟨h, hrest⟩ := silent_succ.1 hsilent
      exact (pulls_of_silent h).2 (ih hrest hs)

theorem pulls_unique {b : Option Outcome} (hy : Pulls x a y) (hz : Pulls x b z) : a = b ∧ y = z := by
  obtain ⟨ha, n, hn, hsn⟩ := pulls_iff.1 hy
  obtain ⟨hb, k, hk, hsk⟩ := pulls_iff.1 hz
  have hnk : n = k := by
    -- the step with the answer of one of them would be silent for the other
    rcases Nat.lt_trichotomy n k with h | h | h
    · exact absurd (by rw [← hk n h, hsn]) ha
    · exact h
    · exact absurd (by rw [← hn k h, hsk]) hb
  subst hnk
  exact Prod.mk.inj (hsn.symm.trans hsk)

theorem pulls_nothing_iff : (∀ a y, ¬Pulls x a y) ↔ ∀ n, Silent n x := by
  constructor
  · intro h n
    induction n with
    | zero => simp [Silent]
    | succ n ih =>
      intro k hk
      rcases Nat.lt_succ_iff_lt_or_eq.1 hk with hlt | rfl
      · exact ih k hlt
      · by_cases hs : (x.after k).step.1 = some (.ok none)
        · exact hs
        · exact absurd (pulls_iff.2 ⟨hs, k, ih, rfl⟩) (h _ _)
  · intro h a y hp
    obtain ⟨ha, n, -, hs⟩ := pulls_iff.1 hp
    exact ha (by rw [← h (n + 1) n (by omega), hs])

/-- What a caller has been told, one answer for each time of asking, by steps or for values. -/
inductive Calls : Execution μ ι σ → List (Option Outcome) → Execution μ ι σ → Prop where
  | nil (x : Execution μ ι σ) : Calls x [] x
  | step {x y z : Execution μ ι σ} {a : Option Outcome} {as : List (Option Outcome)}
      (h : x.step = (a, y)) (rest : Calls y as z) : Calls x (a :: as) z
  | pull {x y z : Execution μ ι σ} {a : Option Outcome} {as : List (Option Outcome)}
      (h : Pulls x a y) (rest : Calls y as z) : Calls x (a :: as) z

theorem pulls_of_finished (h : x.finished = true) : Pulls x a y ↔ a = none ∧ y = x := by
  have hs := step_of_finished h
  rw [pulls_of_answer (by simp [hs]), hs, Prod.mk.injEq]
  simp only [eq_comm]

theorem step_finished_iff (x : Execution μ ι σ) :
    x.step.2.finished = true ↔ x.finished = true ∨ ¬Success x.step.1 := by
  rcases x.next_cases with hx | ⟨i, o, n, t, hx, he⟩ | ⟨i, e, n, t, hx, he⟩
  · simp [step_of_over hx, Success]
  · have hrunning : x.finished ≠ true := fun hf => by simp [pending?_of_finished hf] at hx
    simp [step_of_ok hx he, Success, hrunning]
  · simp [step_of_error hx he, Success]

theorem pull_finished_iff (h : Pulls x a y) :
    y.finished = true ↔ x.finished = true ∨ ¬Success a := by
  obtain ⟨-, n, hsilent, hs⟩ := pulls_iff.1 h
  clear h
  induction n generalizing x with
  | zero => simpa only [show x.step = (a, y) from hs] using step_finished_iff x
  | succ n ih =>
    obtain ⟨hfirst, hrest⟩ := silent_succ.1 hsilent
    have hsame : x.step.2.finished = true ↔ x.finished = true := by
      rw [step_finished_iff, hfirst]
      simp [Success]
    rw [← hsame]
    exact ih hrest hs

theorem Calls.finished_iff {as : List (Option Outcome)} (h : Calls x as y) :
    y.finished = true ↔ x.finished = true ∨ ∃ a ∈ as, ¬Success a := by
  induction h with
  | nil x => simp
  | @step x y z a as h rest ih =>
    have hy := step_finished_iff x
    rw [h] at hy
    simp [ih, hy, or_assoc]
  | pull h rest ih => simp [ih, pull_finished_iff h, or_assoc]

theorem Calls.of_finished {as : List (Option Outcome)} (h : Calls x as y) (hx : x.finished = true) :
    y = x ∧ ∀ a ∈ as, a = none := by
  induction h with
  | nil x => simp
  | @step x y z a as h rest ih =>
    obtain ⟨rfl, rfl⟩ := Prod.mk.inj ((step_of_finished hx).symm.trans h)
    simpa using ih hx
  | @pull x y z a as h rest ih =>
    obtain ⟨rfl, rfl⟩ := (pulls_of_finished hx).1 h
    simpa using ih hx

section Drain

variable {emit : Word → σ → σ} {e : Ending}

def emitted (emit : Word → σ → σ) (v : Word) (x : Execution μ ι σ) : Execution μ ι σ :=
  ⟨x.program, x.machine, emit v x.input, x.finished⟩

/-- Asked for its next value again and again, `x` ends with `e` and is then `z`. Each value
goes to `emit` before the next one is asked for. -/
inductive Drains (emit : Word → σ → σ) : Execution μ ι σ → Ending → Execution μ ι σ → Prop where
  | halted {x y : Execution μ ι σ} (h : Pulls x none y) : Drains emit x .halted y
  | failed {x y : Execution μ ι σ} {e : RuntimeError} (h : Pulls x (some (.error e)) y) :
      Drains emit x (.failed e) y
  | value {x y z : Execution μ ι σ} {v : Word} {e : Ending} (h : Pulls x (some (.ok (some v))) y)
      (rest : Drains emit (y.emitted emit v) e z) : Drains emit x e z

theorem Drains.of_silent (hs : x.step = (some (.ok none), y)) (h : Drains emit y e z) :
    Drains emit x e z := by
  have hpull {a : Option Outcome} {w : Execution μ ι σ} (hw : Pulls y a w) : Pulls x a w := by
    rw [pulls_of_silent (by rw [hs]), hs]
    exact hw
  cases h with
  | halted h => exact .halted (hpull h)
  | failed h => exact .failed (hpull h)
  | value h rest => exact .value (hpull h) rest

def resume (emit : Word → σ → σ) (fuel : Nat) : Option Outcome → Execution μ ι σ →
    Ending × Execution μ ι σ
  | none, x => (.halted, x)
  | some (.error e), x => (.failed e, x)
  | some (.ok none), x => x.run emit fuel
  | some (.ok (some v)), x => (x.emitted emit v).run emit fuel

theorem run_succ (x : Execution μ ι σ) (emit : Word → σ → σ) (fuel : Nat) :
    x.run emit (fuel + 1) = resume emit fuel x.step.1 x.step.2 := by
  rcases hs : x.step with ⟨_ | e | _ | v, y⟩ <;> simp only [run, hs] <;> rfl

theorem run_of_pulls (h : Pulls x a y) (emit : Word → σ → σ) :
    ∃ n, ∀ fuel, x.run emit (fuel + 1 + n) = resume emit fuel a y := by
  obtain ⟨-, n, hsilent, hs⟩ := pulls_iff.1 h
  refine ⟨n, fun fuel => ?_⟩
  clear h
  induction n generalizing x with
  | zero => rw [Nat.add_zero, run_succ, show x.step = (a, y) from hs]
  | succ n ih =>
    obtain ⟨hfirst, hrest⟩ := silent_succ.1 hsilent
    rw [← Nat.add_assoc, run_succ, hfirst]
    exact ih hrest hs

theorem Drains.exists_run (h : Drains emit x e z) : ∃ fuel, x.run emit fuel = (e, z) := by
  induction h with
  | halted h =>
    obtain ⟨n, hn⟩ := run_of_pulls h emit
    exact ⟨_, hn 0⟩
  | failed h =>
    obtain ⟨n, hn⟩ := run_of_pulls h emit
    exact ⟨_, hn 0⟩
  | value h rest ih =>
    obtain ⟨n, hn⟩ := run_of_pulls h emit
    obtain ⟨fuel, hfuel⟩ := ih
    exact ⟨_, (hn fuel).trans hfuel⟩

theorem drains_of_run {fuel : Nat} (he : e ≠ .unfinished) (h : x.run emit fuel = (e, z)) :
    Drains emit x e z := by
  induction fuel generalizing x with
  | zero => exact absurd (Prod.mk.inj h).1.symm he
  | succ fuel ih =>
    rw [run_succ] at h
    rcases hs : x.step with ⟨_ | e' | _ | v, y⟩ <;> rw [hs] at h
    · cases h
      exact .halted ((pulls_of_answer (by simp [hs])).2 hs)
    · cases h
      exact .failed ((pulls_of_answer (by simp [hs])).2 hs)
    · exact .of_silent hs (ih h)
    · exact .value ((pulls_of_answer (by simp [hs])).2 hs) (ih h)

/-- A run that ends is a loop over the values of the execution. -/
theorem run_ends_iff : (e ≠ .unfinished ∧ ∃ fuel, x.run emit fuel = (e, z)) ↔ Drains emit x e z := by
  constructor
  · rintro ⟨he, fuel, h⟩
    exact drains_of_run he h
  · intro h
    refine ⟨?_, h.exists_run⟩
    induction h with
    | halted h => simp
    | failed h => simp
    | value h rest ih => exact ih

end Drain

end Execution

/-- Asking for the next value is taking steps up to the first that has an answer, and
goes on for ever exactly if there is none. An execution is finished once an answer was
no success, and then it stays as it is and has no other answer to give. -/
theorem pulling_is_stepping (kind : Kind) {σ : Type} [Source σ]
    (x : Execution kind.Machine kind.Instruction σ) :
    (∀ a y, x.Pulls a y ↔ a ≠ some (.ok none) ∧
      ∃ n, (∀ k < n, (x.after k).step.1 = some (.ok none)) ∧ (x.after n).step = (a, y)) ∧
    (∀ a y b z, x.Pulls a y → x.Pulls b z → a = b ∧ y = z) ∧
    ((∀ a y, ¬x.Pulls a y) ↔ ∀ k, (x.after k).step.1 = some (.ok none)) ∧
    (∀ as y, x.Calls as y →
      (y.finished = true ↔ x.finished = true ∨ ∃ a ∈ as, ¬Execution.Success a) ∧
      (y.finished = true → y.step = (none, y) ∧ y.Pulls none y ∧
        ∀ bs z, y.Calls bs z → z = y ∧ ∀ b ∈ bs, b = none)) := by
  refine ⟨fun a y => Execution.pulls_iff, fun a y b z => Execution.pulls_unique, ?_,
    fun as y h => ⟨h.finished_iff, fun hy => ⟨?_, ?_, fun bs z hz => ?_⟩⟩⟩
  · rw [Execution.pulls_nothing_iff]
    exact ⟨fun h k => h (k + 1) k (by omega), fun h n k _ => h k⟩
  · exact Execution.step_of_finished hy
  · exact (Execution.pulls_of_finished hy).2 ⟨rfl, rfl⟩
  · exact hz.of_finished hy

def oneValue : Program Kind.am0.Instruction :=
  ⟨#[(⟨.lit, 1⟩ : AM0.Instruction), (⟨.access .store, 0⟩ : AM0.Instruction),
    (⟨.access .write, 0⟩ : AM0.Instruction), (⟨.operator .add, 0⟩ : AM0.Instruction),
    (⟨.lit, 2⟩ : AM0.Instruction)]⟩

def endless : Program Kind.am1.Instruction := ⟨#[AM1.Instruction.jmp 1]⟩

theorem oneValue_pulled :
    let x := Execution.start oneValue (Model.initial : Kind.am0.Machine) [(7 : Word)]
    let error : RuntimeError := .stackUnderflow 3 2 0
    x.Pulls (some (.ok (some 1))) (x.after 3) ∧ (x.after 3).finished ≠ true ∧
    (x.after 3).Pulls (some (.error error)) (x.after 4) ∧ (x.after 4).finished = true ∧
    (x.after 4).Pulls none (x.after 4) ∧
    ∀ a y, ¬(Execution.start endless (Model.initial : Kind.am1.Machine) ([] : List Word)).Pulls a y := by
  intro x error
  have hvalue : x.Pulls (some (.ok (some 1))) (x.after 3) := by
    refine ((pulling_is_stepping .am0 x).1 _ _).2 ⟨by simp, 2, fun k hk => ?_, rfl⟩
    match k, hk with
    | 0, _ => rfl
    | 1, _ => rfl
  have herror : (x.after 3).Pulls (some (.error error)) (x.after 4) :=
    ((pulling_is_stepping .am0 (x.after 3)).1 _ _).2 ⟨by simp, 0, by simp, rfl⟩
  have hfirst := (pulling_is_stepping .am0 x).2.2.2 _ _ (.pull hvalue (.nil _))
  obtain ⟨hfinished, hover⟩ :=
    (pulling_is_stepping .am0 x).2.2.2 _ _ (.pull hvalue (.pull herror (.nil _)))
  have hend : (x.after 4).finished = true :=
    hfinished.2 (Or.inr ⟨some (.error error), by simp, by simp [Execution.Success]⟩)
  refine ⟨hvalue, ?_, herror, hend, (hover hend).2.1, ?_⟩
  · intro hlast
    rcases hfirst.1.1 hlast with hx | ⟨a, ha, hfail⟩
    · exact absurd hx (by decide)
    · exact hfail ⟨some 1, by simpa using ha⟩
  · let w := Execution.start endless (Model.initial : Kind.am1.Machine) ([] : List Word)
    have hstep : w.step = (some (.ok none), w) := rfl
    have hafter (k : Nat) : w.after k = w := Execution.after_of_still (by rw [hstep]) k
    exact (pulling_is_stepping .am1 w).2.2.1.2 fun k => by rw [hafter, hstep]

end AbstractMachines
