import AbstractMachines.Proofs.Laws
import AbstractMachines.Proofs.Storage
import Mathlib.Data.List.Induction

/-!
# The memory as a record of what was put there

Starting from a fresh machine, the cells of the sparse memory are exactly the addresses
at which a store or a read has succeeded since the last reset, and each cell has the
word that the latest of these put there. Operations that fail, and those that do
anything else, leave no mark in memory. The status shows the cells in ascending order.
-/

namespace AbstractMachines
namespace AM0

inductive Operation where
  | execute (i : Instruction) (input : List Word)
  | setCounter (c : Word)
  | reset

def Operation.apply (m : Machine) : Operation → Machine
  | execute i input => (AbstractMachines.execute i m input).machine
  | setCounter c => Model.setCounter c m
  | reset => Model.initial

def replay (ops : List Operation) : Machine := ops.foldl Operation.apply Model.initial

/-- The operation succeeds on `m` in storing the word it pops, or the word it reads. -/
inductive Puts (m : Machine) : Operation → Word → Word → Prop where
  | store {a v : Word} {rest input : List Word} (hpop : m.stack = v :: rest)
      (h : (execute (⟨.access .store, a⟩ : Instruction) m input).outcome = .ok none) :
      Puts m (.execute ⟨.access .store, a⟩ input) a v
  | read {a v : Word} {rest : List Word}
      (h : (execute (⟨.access .read, a⟩ : Instruction) m (v :: rest)).outcome = .ok none) :
      Puts m (.execute ⟨.access .read, a⟩ (v :: rest)) a v

/-- Operation number `n`, counted from zero, put `v` at `a`, and no reset followed. -/
def PutAt (ops : List Operation) (n : Nat) (a v : Word) : Prop :=
  ∃ op, ops[n]? = some op ∧ Puts (replay (ops.take n)) op a v ∧ .reset ∉ ops.drop (n + 1)

def LatestPut (ops : List Operation) (a v : Word) : Prop :=
  ∃ n, PutAt ops n a v ∧ ∀ k w, PutAt ops k a w → k ≤ n

theorem Puts.unique {m : Machine} {op : Operation} {a b v w : Word} (h : Puts m op a v)
    (h' : Puts m op b w) : a = b ∧ v = w := by
  cases h with
  | store hpop =>
    cases h' with
    | store hpop' =>
      rw [hpop] at hpop'
      exact ⟨rfl, (List.cons.inj hpop').1⟩
  | read =>
    cases h'
    exact ⟨rfl, rfl⟩

namespace Machine

theorem memory_onCore {f : Core → Except RuntimeError Core} {m n : Machine} {o : Option Word}
    (h : onCore f m = .done n o) : n.memory = m.memory := by
  obtain ⟨c, rfl⟩ := onCore_done h
  rfl

theorem memory_access {kind : Access} (hkind : kind ≠ .store) {a : Word} {m n : Machine}
    {o : Option Word} (h : m.access kind a = .done n o) : n.memory = m.memory := by
  cases kind with
  | store => exact absurd rfl hkind
  | read => cases h
  | load =>
    simp only [access] at h
    split at h
    · cases h
      rfl
    · cases h
  | write =>
    simp only [access] at h
    split at h
    · cases h
      rfl
    · cases h

theorem memory_act {i : Instruction} (hi : i.opcode ≠ .access .store) {m n : Machine}
    {o : Option Word} (h : m.act i = .done n o) : n.memory = m.memory := by
  obtain ⟨opcode, payload⟩ := i
  cases opcode with
  | operator op => exact memory_onCore h
  | access kind => exact memory_access (fun hkind => hi (congrArg _ hkind)) h
  | lit =>
    cases h
    rfl
  | jmp =>
    cases h
    rfl
  | jmc => exact memory_onCore h

theorem act_store_done {a : Word} {m n : Machine} {o : Option Word}
    (h : m.act ⟨.access .store, a⟩ = .done n o) :
    ∃ v rest, m.stack = v :: rest ∧ o = none ∧ n.memory = m.memory.insert a v := by
  simp only [act, access] at h
  split at h
  · next v rest hs =>
    cases h
    exact ⟨v, rest, hs, rfl, rfl⟩
  · cases h

end Machine

theorem execute_memory (i : Instruction) (m : Machine) (input : List Word) :
    (∃ a v, Puts m (.execute i input) a v ∧
      (execute i m input).machine.memory = m.memory.insert a v) ∨
    ((∀ a v, ¬Puts m (.execute i input) a v) ∧
      (execute i m input).machine.memory = m.memory) := by
  match hx : execute i m input with
  | ⟨.error e, n, t⟩ =>
    right
    have hn := (execute_error (by rw [hx])).1
    rw [hx, Reply.mk.injEq] at hn
    refine ⟨fun a v hput => ?_, by rw [hn.2.1]⟩
    cases hput with
    | store hpop h => simp [hx] at h
    | read h => simp [hx] at h
  | ⟨.ok o, n, t⟩ =>
    rcases execute_ok hx with ⟨hread, ha, -⟩ | ⟨hread, rfl, a, v, ha, hs, rfl⟩
    · by_cases hi : i.opcode = .access .store
      · obtain ⟨opcode, a⟩ := i
        obtain rfl : opcode = .access .store := hi
        obtain ⟨v, rest, hpop, rfl, hmemory⟩ := Machine.act_store_done ha
        exact .inl ⟨a, v, .store hpop (by rw [hx]), hmemory⟩
      · refine .inr ⟨fun a v hput => ?_, Machine.memory_act hi ha⟩
        cases hput with
        | store => exact hi rfl
        | read => cases hread
    · obtain ⟨opcode, payload⟩ := i
      obtain rfl : opcode = .access .read := of_decide_eq_true hread
      obtain rfl : payload = a := (Action.read.inj ha).2
      cases input with
      | nil => cases hs
      | cons w rest =>
        cases hs
        exact .inl ⟨payload, v, .read (by rw [hx]), rfl⟩

theorem Operation.get?_apply (op : Operation) (m : Machine) (a v : Word) :
    (op.apply m).memory.get? a = some v ↔
      Puts m op a v ∨ (op ≠ .reset ∧ (∀ w, ¬Puts m op a w) ∧ m.memory.get? a = some v) := by
  cases op with
  | execute i input =>
    rcases execute_memory i m input with ⟨b, w, hput, hmemory⟩ | ⟨hnone, hmemory⟩
    · rw [apply, hmemory, Memory.get?_insert]
      by_cases hab : a = b
      · subst hab
        rw [if_pos rfl, Option.some.injEq]
        constructor
        · intro hwv
          exact .inl (hwv ▸ hput)
        · rintro (hput' | ⟨-, hnone, -⟩)
          · exact (hput.unique hput').2
          · exact absurd hput (hnone w)
      · rw [if_neg hab]
        have hother : ∀ u, ¬Puts m (.execute i input) a u := fun u hu => hab (hu.unique hput).1
        simp [hother]
    · rw [apply, hmemory]
      simp [hnone]
  | setCounter c =>
    have hnone : ∀ w, ¬Puts m (.setCounter c) a w := fun w hw => by cases hw
    simp only [hnone, false_or]
    exact ⟨fun h => ⟨by simp, by simp, h⟩, fun h => h.2.2⟩
  | reset =>
    have hnone : ¬Puts m .reset a v := fun hw => by cases hw
    simp only [hnone, ne_eq, not_true_eq_false, false_and, or_false, iff_false]
    exact fun h => by cases h

theorem replay_snoc (ops : List Operation) (op : Operation) :
    replay (ops ++ [op]) = op.apply (replay ops) := by
  rw [replay, replay, List.foldl_append]
  rfl

section Latest

variable {ops : List Operation} {op : Operation} {n : Nat} {a v : Word}

theorem PutAt.lt_length (h : PutAt ops n a v) : n < ops.length := by
  obtain ⟨op, hop, -⟩ := h
  exact (List.getElem?_eq_some_iff.1 hop).1

theorem putAt_snoc_of_lt (hn : n < ops.length) :
    PutAt (ops ++ [op]) n a v ↔ op ≠ .reset ∧ PutAt ops n a v := by
  simp only [PutAt, List.getElem?_append_left hn, List.take_append_of_le_length (Nat.le_of_lt hn),
    List.drop_append_of_le_length hn, List.mem_append, List.mem_singleton, not_or]
  constructor
  · rintro ⟨op', hop, hput, hkept, hne⟩
    exact ⟨Ne.symm hne, op', hop, hput, hkept⟩
  · rintro ⟨hne, op', hop, hput, hkept⟩
    exact ⟨op', hop, hput, hkept, Ne.symm hne⟩

theorem putAt_snoc_iff : PutAt (ops ++ [op]) n a v ↔
    (n = ops.length ∧ Puts (replay ops) op a v) ∨ (op ≠ .reset ∧ PutAt ops n a v) := by
  rcases Nat.lt_trichotomy n ops.length with hlt | rfl | hgt
  · rw [putAt_snoc_of_lt hlt]
    simp [Nat.ne_of_lt hlt]
  · simp [PutAt]
  · have hnot : ¬PutAt ops n a v := fun h => Nat.lt_asymm hgt h.lt_length
    have hnot' : ¬PutAt (ops ++ [op]) n a v := by
      intro h
      have hlt := h.lt_length
      rw [List.length_append, List.length_singleton] at hlt
      omega
    simp [hnot, hnot', Nat.ne_of_gt hgt]

theorem latestPut_snoc_iff : LatestPut (ops ++ [op]) a v ↔
    Puts (replay ops) op a v ∨
      (op ≠ .reset ∧ (∀ w, ¬Puts (replay ops) op a w) ∧ LatestPut ops a v) := by
  constructor
  · rintro ⟨n, hput, hmax⟩
    rcases putAt_snoc_iff.1 hput with ⟨-, hlast⟩ | ⟨hne, hearlier⟩
    · exact .inl hlast
    · refine .inr ⟨hne, fun w hw => ?_, n, hearlier, fun k w hk => ?_⟩
      · have hle := hmax ops.length w (putAt_snoc_iff.2 (.inl ⟨rfl, hw⟩))
        exact Nat.not_lt.2 hle hearlier.lt_length
      · exact hmax k w (putAt_snoc_iff.2 (.inr ⟨hne, hk⟩))
  · rintro (hlast | ⟨hne, hnone, n, hput, hmax⟩)
    · refine ⟨ops.length, putAt_snoc_iff.2 (.inl ⟨rfl, hlast⟩), fun k w hk => ?_⟩
      have hlt := hk.lt_length
      rw [List.length_append, List.length_singleton] at hlt
      exact Nat.le_of_lt_succ hlt
    · refine ⟨n, putAt_snoc_iff.2 (.inr ⟨hne, hput⟩), fun k w hk => ?_⟩
      rcases putAt_snoc_iff.1 hk with ⟨-, hlast⟩ | ⟨-, hearlier⟩
      · exact absurd hlast (hnone w)
      · exact hmax k w hearlier

theorem PutAt.exists_latestPut (h : PutAt ops n a v) : ∃ w, LatestPut ops a w := by
  induction ops using List.reverseRecOn generalizing n v with
  | nil => exact absurd h.lt_length (Nat.not_lt_zero n)
  | append_singleton ops op ih =>
    by_cases hlast : ∃ w, Puts (replay ops) op a w
    · obtain ⟨w, hw⟩ := hlast
      exact ⟨w, latestPut_snoc_iff.2 (.inl hw)⟩
    · rcases putAt_snoc_iff.1 h with ⟨-, hput⟩ | ⟨hne, hearlier⟩
      · exact absurd ⟨v, hput⟩ hlast
      · obtain ⟨w, hw⟩ := ih hearlier
        exact ⟨w, latestPut_snoc_iff.2 (.inr ⟨hne, fun u hu => hlast ⟨u, hu⟩, hw⟩)⟩

end Latest

theorem get?_replay (ops : List Operation) (a v : Word) :
    (replay ops).memory.get? a = some v ↔ LatestPut ops a v := by
  induction ops using List.reverseRecOn with
  | nil =>
    constructor
    · intro h
      cases h
    · rintro ⟨n, h, -⟩
      exact absurd h.lt_length (Nat.not_lt_zero n)
  | append_singleton ops op ih =>
    rw [replay_snoc, Operation.get?_apply, latestPut_snoc_iff, ih]

theorem get?_replay_eq_none_iff (ops : List Operation) (a : Word) :
    (replay ops).memory.get? a = none ↔ ¬∃ n v, PutAt ops n a v := by
  rw [Option.eq_none_iff_forall_ne_some]
  constructor
  · rintro h ⟨n, v, hput⟩
    obtain ⟨w, hw⟩ := hput.exists_latestPut
    exact h w ((get?_replay ops a w).2 hw)
  · intro h v hv
    obtain ⟨n, hput, -⟩ := (get?_replay ops a v).1 hv
    exact h ⟨n, v, hput⟩

theorem Memory.mem_cells_iff {m : Memory} {a v : Word} : (a, v) ∈ m.cells ↔ m.get? a = some v := by
  rw [get?, List.lookup_eq_some_iff]
  constructor
  · intro h
    obtain ⟨front, back, hcells⟩ := List.append_of_mem h
    refine ⟨front, back, hcells, fun p hp => ?_⟩
    have hlt : p.1 < a := by
      have hpair := m.ascending
      rw [hcells] at hpair
      exact (List.pairwise_append.1 hpair).2.2 p hp (a, v) List.mem_cons_self
    simpa using Ne.symm (Int64.ne_of_lt hlt)
  · rintro ⟨front, back, hcells, -⟩
    rw [hcells]
    simp

section Access

variable {σ : Type} [Source σ] {m : Machine} {a v : Word} (s : σ)

theorem execute_of_cell (h : m.memory.get? a = some v) :
    execute (⟨.access .load, a⟩ : Instruction) m s =
      ⟨.ok none, { m with toCore := (m.push v).next }, s⟩ ∧
    execute (⟨.access .write, a⟩ : Instruction) m s =
      ⟨.ok (some v), { m with toCore := m.next }, s⟩ := by
  constructor
  · exact execute_of_done (by simp only [Machine.model_act, Machine.act, Machine.access, h])
  · exact execute_of_done (by simp only [Machine.model_act, Machine.act, Machine.access, h])

theorem execute_of_no_cell (h : m.memory.get? a = none) :
    execute (⟨.access .load, a⟩ : Instruction) m s =
      ⟨.error (.missingAddress m.counter a), m, s⟩ ∧
    execute (⟨.access .write, a⟩ : Instruction) m s =
      ⟨.error (.missingAddress m.counter a), m, s⟩ := by
  constructor
  · exact execute_of_fail
      (by simp only [Machine.model_act, Machine.act, Machine.access, h, Machine.missing])
  · exact execute_of_fail
      (by simp only [Machine.model_act, Machine.act, Machine.access, h, Machine.missing])

end Access

/-- After any operations on a fresh machine, an address can be loaded and written exactly if
a store or a read there has succeeded since the last reset, and then gives the word of the
latest such success. The status lists these addresses, each once, in ascending order, with
these words. -/
theorem memory_is_the_write_history (ops : List Operation) {σ : Type} [Source σ] (s : σ) :
    let m := replay ops
    let load (a : Word) := execute (⟨.access .load, a⟩ : Instruction) m s
    let write (a : Word) := execute (⟨.access .write, a⟩ : Instruction) m s
    (∀ a, ((load a).outcome = .error (.missingAddress m.counter a) ↔ ¬∃ n v, PutAt ops n a v) ∧
      ((write a).outcome = .error (.missingAddress m.counter a) ↔ ¬∃ n v, PutAt ops n a v)) ∧
    (∀ a, (∃ n v, PutAt ops n a v) → ∃ v, LatestPut ops a v ∧
      (load a).outcome = .ok none ∧ (load a).machine.stack = v :: m.stack ∧
      (write a).outcome = .ok (some v)) ∧
    ∃ cells : List (Word × Word), cells.Pairwise (fun p q => p.1.toInt < q.1.toInt) ∧
      (∀ a v, (a, v) ∈ cells ↔ LatestPut ops a v) ∧
      Model.status m = "Counter: " ++ m.counter.text ++ "\nStack: " ++
        Word.listText m.stack.reverse ++ "\nMemory:\n" ++
        "\n".intercalate (cells.map fun p => "\t" ++ p.1.text ++ " := " ++ p.2.text) := by
  intro m load write
  refine ⟨fun a => ?_, fun a hput => ?_, m.memory.cells, ?_, fun a v => ?_, rfl⟩
  · rw [← get?_replay_eq_none_iff]
    cases hcell : m.memory.get? a with
    | none =>
      obtain ⟨hload, hwrite⟩ := execute_of_no_cell s hcell
      simp [load, write, hload, hwrite]
    | some v =>
      obtain ⟨hload, hwrite⟩ := execute_of_cell s hcell
      simp [load, write, hload, hwrite]
  · obtain ⟨n, w, hput⟩ := hput
    obtain ⟨v, hv⟩ := hput.exists_latestPut
    obtain ⟨hload, hwrite⟩ := execute_of_cell s ((get?_replay ops a v).2 hv)
    refine ⟨v, hv, ?_, ?_, ?_⟩
    · rw [show load a = _ from hload]
    · rw [show load a = _ from hload]
      rfl
    · rw [show write a = _ from hwrite]
  · exact m.memory.ascending.imp Int64.lt_iff_toInt_lt.1
  · rw [Memory.mem_cells_iff, get?_replay]

def notebook : List Operation :=
  [.execute ⟨.lit, 4⟩ [], .execute ⟨.access .store, 3⟩ [], .execute ⟨.access .read, 3⟩ [],
    .execute ⟨.access .store, 7⟩ [], .reset, .execute ⟨.access .read, 2⟩ [8],
    .execute ⟨.access .read, 2⟩ [9], .setCounter 40, .execute ⟨.access .read, -1⟩ [6, 1]]

theorem notebook_remembered :
    let m := replay notebook
    (execute (⟨.access .load, 3⟩ : Instruction) m ([] : List Word)).outcome =
      .error (.missingAddress 41 3) ∧
    LatestPut notebook 2 9 ∧
    (execute (⟨.access .write, 2⟩ : Instruction) m ([] : List Word)).outcome = .ok (some 9) ∧
    Model.status m = "Counter: 41\nStack: []\nMemory:\n\t-1 := 6\n\t2 := 9" := by
  intro m
  obtain ⟨hmissing, hput, -⟩ := memory_is_the_write_history notebook ([] : List Word)
  have hnone : ¬∃ n v, PutAt notebook n 3 v := (get?_replay_eq_none_iff notebook 3).1 rfl
  have htwice : PutAt notebook 6 2 9 := ⟨_, rfl, .read rfl, by simp [notebook]⟩
  obtain ⟨v, hv, -, -, hwrite⟩ := hput 2 ⟨6, 9, htwice⟩
  obtain rfl : v = 9 := Option.some.inj (((get?_replay notebook 2 v).2 hv).symm.trans rfl)
  exact ⟨(hmissing 3).1.2 hnone, hv, hwrite, by decide +kernel⟩

end AM0
end AbstractMachines
