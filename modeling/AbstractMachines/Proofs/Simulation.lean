import AbstractMachines.Proofs.History

/-!
# Simulation of one execution by another

Two machines that give like answers to corresponding instructions, fed by two
sources that give the same words, execute corresponding programs in lock step.
The relation between the machines and that between the sources are parameters.
An instruction may also be exempt: where the first machine fails with an error
that is allowed to differ, nothing is asked of the second one, and the lock
step holds for as long as no such error occurs.
-/

namespace AbstractMachines

structure SameWords {σ τ : Type} [Source σ] [Source τ] (S : σ → τ → Prop) : Prop where
  value {s : σ} {t : τ} : S s t → (Source.next t).1 = (Source.next s).1
  rest {s : σ} {t : τ} : S s t → S (Source.next s).2 (Source.next t).2

theorem sameWords_eq {σ : Type} [Source σ] : SameWords (Eq : σ → σ → Prop) where
  value h := h ▸ rfl
  rest h := h ▸ rfl

inductive Action.Alike {μ ν ι κ : Type} [Model μ ι] [Model ν κ] (R : μ → ν → Prop) :
    Action μ → Action ν → Prop where
  | done {m : μ} {n : ν} (o : Option Word) (h : R m n) : Alike R (.done m o) (.done n o)
  | fail {m : μ} {n : ν} (e : RuntimeError) (h : R m n) : Alike R (.fail m e) (.fail n e)
  | read {m : μ} {n : ν} (a : Word) (h : R m n)
      (hd : ∀ v, R (Model.deliver a v m) (Model.deliver a v n)) :
      Alike R (.read m a) (.read n a)

theorem Action.alike_refl {μ ι : Type} [Model μ ι] (a : Action μ) : Alike Eq a a := by
  cases a with
  | done m o => exact .done o rfl
  | fail m e => exact .fail e rfl
  | read m a => exact .read a rfl fun _ => rfl

variable {μ ν ι κ σ τ : Type} [Model μ ι] [Model ν κ] [Source σ] [Source τ]
variable {R : μ → ν → Prop} {S : σ → τ → Prop} {f : ι → κ}

theorem onCore_alike [HasCore μ] [HasCore ν] {f : Core → Except RuntimeError Core} {m : μ} {n : ν}
    (g : Core → Core) (h : R m n) (hf : f (HasCore.core n) = (f (HasCore.core m)).map g)
    (hR : ∀ c, R (HasCore.withCore c m) (HasCore.withCore (g c) n)) :
    Action.Alike R (onCore f m) (onCore f n) := by
  unfold onCore
  rw [hf]
  cases f (HasCore.core m) with
  | ok c => exact .done none (hR c)
  | error e => exact .fail e h

structure Reply.Alike (R : μ → ν → Prop) (S : σ → τ → Prop) (r : Reply μ σ) (q : Reply ν τ) :
    Prop where
  outcome : q.outcome = r.outcome
  machine : R r.machine q.machine
  input : S r.input q.input

theorem execute_alike (hR : ∀ m n, R m n → Model.counter n = Model.counter m)
    (hS : SameWords S) {i : ι} {j : κ} {m : μ} {n : ν} {s : σ} {t : τ} (hst : S s t)
    (h : Action.Alike R (Model.act i m) (Model.act j n)) :
    Reply.Alike R S (execute i m s) (execute j n t) := by
  generalize ha : Model.act i m = a at h
  generalize hb : Model.act j n = b at h
  cases h with
  | done o h =>
    rw [execute_of_done ha, execute_of_done hb]
    exact ⟨rfl, h, hst⟩
  | fail e h =>
    rw [execute_of_fail ha, execute_of_fail hb]
    exact ⟨rfl, h, hst⟩
  | read a h hd =>
    have hv := hS.value hst
    have hrest := hS.rest hst
    match hs : Source.next s, ht : Source.next t with
    | (some v, s'), (some w, t') =>
      obtain rfl : w = v := by simpa [hs, ht] using hv
      rw [execute_of_read ha hs, execute_of_read hb ht]
      rw [hs, ht] at hrest
      exact ⟨rfl, hd w, hrest⟩
    | (none, s'), (none, t') =>
      rw [execute_of_starved ha hs, execute_of_starved hb ht, hR _ _ h]
      rw [hs, ht] at hrest
      exact ⟨rfl, h, hrest⟩
    | (some v, s'), (none, t') => simp [hs, ht] at hv
    | (none, s'), (some w, t') => simp [hs, ht] at hv

def Program.map (f : ι → κ) (p : Program ι) : Program κ := ⟨p.code.map f⟩

omit [Model μ ι] [Model ν κ] in
theorem Program.fetch_map (f : ι → κ) (p : Program ι) (c : Word) :
    (p.map f).fetch c = (p.fetch c).map f := by
  unfold fetch
  split
  · simp [map]
  · rfl

omit [Model μ ι] in
theorem Program.mem_of_fetch {p : Program ι} {c : Word} {i : ι} (h : p.fetch c = some i) :
    i ∈ p.code := by
  unfold fetch at h
  split at h
  · exact Array.mem_of_getElem? h
  · simp at h

namespace Execution

structure Linked (f : ι → κ) (R : μ → ν → Prop) (S : σ → τ → Prop)
    (x : Execution μ ι σ) (y : Execution ν κ τ) : Prop where
  program : y.program = x.program.map f
  machine : R x.machine y.machine
  input : S x.input y.input
  finished : y.finished = x.finished

omit [Source σ] [Source τ] in
theorem Linked.pending? (hR : ∀ m n, R m n → Model.counter n = Model.counter m)
    {x : Execution μ ι σ} {y : Execution ν κ τ} (h : Linked f R S x y) :
    y.pending? = x.pending?.map f := by
  unfold Execution.pending?
  rw [h.finished, h.program, hR _ _ h.machine, Program.fetch_map]
  split <;> rfl

omit [Source σ] in
theorem mem_of_pending? {x : Execution μ ι σ} {i : ι} (h : x.pending? = some i) :
    i ∈ x.program.code := by
  unfold Execution.pending? at h
  split at h
  · simp at h
  · exact Program.mem_of_fetch h

/-- Executions linked at the start stay linked and execute corresponding
instructions with the same outcomes, for as long as no exempt error occurs. -/
theorem history_lockStep (hR : ∀ m n, R m n → Model.counter n = Model.counter m)
    {exempt : RuntimeError → Prop} (k : Nat) {x : Execution μ ι σ} {y : Execution ν κ τ}
    (h : Linked f R S x y)
    (hexec : ∀ i ∈ x.program.code, ∀ m n s t, R m n → S s t →
      Reply.Alike R S (execute i m s) (execute (f i) n t) ∨
      ∃ e, (execute i m s).outcome = .error e ∧ exempt e)
    (hok : ∀ i e, (i, .error e) ∈ history k x → ¬ exempt e) :
    history k y = (history k x).map (Prod.map f id) ∧ Linked f R S (after k x) (after k y) := by
  induction k generalizing x y with
  | zero => exact ⟨rfl, h⟩
  | succ k ih =>
    have hp := h.pending? hR
    rcases next_cases x with hx | ⟨i, o, m', s', hx, he⟩ | ⟨i, e, m', s', hx, he⟩
    · rw [hx] at hp
      rw [history_of_over hx, history_of_over hp, after_succ_of_over hx, after_succ_of_over hp]
      exact ⟨rfl, h.program, h.machine, h.input, rfl⟩
    · rw [hx] at hp
      have hr := (hexec i (mem_of_pending? hx) _ _ _ _ h.machine h.input).resolve_right (by
        rintro ⟨e, he', -⟩
        simp [he] at he')
      match hy : execute (f i) y.machine y.input with
      | ⟨o', n', t'⟩ =>
        rw [he, hy] at hr
        obtain ⟨rfl, hm, hs⟩ := hr
        rw [history_succ_of_ok hx he] at hok ⊢
        rw [history_succ_of_ok hp hy, after_succ_of_ok hx he, after_succ_of_ok hp hy]
        obtain ⟨hh, hl⟩ := ih (x := ⟨x.program, m', s', false⟩) (y := ⟨y.program, n', t', false⟩)
          ⟨h.program, hm, hs, rfl⟩ hexec (fun j e hj => hok j e (List.mem_cons_of_mem _ hj))
        exact ⟨by rw [hh]; rfl, hl⟩
    · rw [hx] at hp
      have hmem : (i, Except.error e) ∈ history (k + 1) x := by
        rw [history_succ_of_error hx he]
        exact List.mem_singleton.mpr rfl
      have hr := (hexec i (mem_of_pending? hx) _ _ _ _ h.machine h.input).resolve_right (by
        rintro ⟨e', he', hex⟩
        rw [he, Except.error.injEq] at he'
        exact hok i e hmem (he' ▸ hex))
      match hy : execute (f i) y.machine y.input with
      | ⟨o', n', t'⟩ =>
        rw [he, hy] at hr
        obtain ⟨rfl, hm, hs⟩ := hr
        rw [history_succ_of_error hx he, history_succ_of_error hp hy, after_succ_of_error hx he,
          after_succ_of_error hp hy]
        exact ⟨rfl, h.program, hm, hs, rfl⟩

theorem history_linked (hR : ∀ m n, R m n → Model.counter n = Model.counter m)
    (hS : SameWords S) {exempt : RuntimeError → Prop} (k : Nat)
    {x : Execution μ ι σ} {y : Execution ν κ τ} (h : Linked f R S x y)
    (hact : ∀ i ∈ x.program.code, ∀ m n, R m n →
      Action.Alike R (Model.act i m) (Model.act (f i) n) ∨
      ∃ m' e, Model.act i m = .fail m' e ∧ exempt e)
    (hok : ∀ i e, (i, .error e) ∈ history k x → ¬ exempt e) :
    history k y = (history k x).map (Prod.map f id) ∧ Linked f R S (after k x) (after k y) := by
  refine history_lockStep hR k h (fun i hi m n s t hm hs => ?_) hok
  rcases hact i hi m n hm with halike | ⟨m', e, ha, hex⟩
  · exact Or.inl (execute_alike hR hS hs halike)
  · exact Or.inr ⟨e, by rw [execute_of_fail ha], hex⟩

theorem run_linked (hR : ∀ m n, R m n → Model.counter n = Model.counter m) (hS : SameWords S)
    (hact : ∀ i m n, R m n → Action.Alike R (Model.act i m) (Model.act (f i) n))
    {emit : Word → σ → σ} {emit' : Word → τ → τ}
    (hemit : ∀ v s t, S s t → S (emit v s) (emit' v t)) (fuel : Nat)
    {x : Execution μ ι σ} {y : Execution ν κ τ} (h : Linked f R S x y) :
    (y.run emit' fuel).1 = (x.run emit fuel).1 ∧
      Linked f R S (x.run emit fuel).2 (y.run emit' fuel).2 := by
  induction fuel generalizing x y with
  | zero => exact ⟨rfl, h⟩
  | succ fuel ih =>
    have hp := h.pending? hR
    rcases next_cases x with hx | ⟨i, o, m', s', hx, he⟩ | ⟨i, e, m', s', hx, he⟩
    · rw [hx] at hp
      rw [run, run, step_of_over hx, step_of_over hp]
      exact ⟨rfl, h.program, h.machine, h.input, rfl⟩
    · rw [hx] at hp
      have hr := execute_alike hR hS h.input (hact i _ _ h.machine)
      match hy : execute (f i) y.machine y.input with
      | ⟨o', n', t'⟩ =>
        rw [he, hy] at hr
        obtain ⟨rfl, hm, hs⟩ := hr
        rw [run, run, step_of_ok hx he, step_of_ok hp hy]
        cases o with
        | none => exact ih ⟨h.program, hm, hs, rfl⟩
        | some v => exact ih ⟨h.program, hm, hemit v _ _ hs, rfl⟩
    · rw [hx] at hp
      have hr := execute_alike hR hS h.input (hact i _ _ h.machine)
      match hy : execute (f i) y.machine y.input with
      | ⟨o', n', t'⟩ =>
        rw [he, hy] at hr
        obtain ⟨rfl, hm, hs⟩ := hr
        rw [run, run, step_of_error hx he, step_of_error hp hy]
        exact ⟨rfl, h.program, hm, hs, rfl⟩

end Execution
end AbstractMachines
