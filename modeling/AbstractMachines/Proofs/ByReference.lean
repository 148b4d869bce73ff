import AbstractMachines.Proofs.Jumps
import Mathlib.Logic.Function.Iterate

/-!
# Passing arguments by reference

A caller passes a variable by putting its address on the runtime stack, with any
number of further arguments above it, and calls. The callee finds the address at a
negative local offset and reaches the variable through it. What the callee puts
there is in the caller's slot after the return, and nothing else has changed: the
frame and the arguments are gone, and the counter is behind the call.

`inFrame` is the machine in such a call, split into the runtime stack of the caller,
the arguments and the two words of the frame. Accesses through the first argument
change the first of these parts only, and the return leaves nothing but that part.
-/

namespace AbstractMachines

section Sequence

variable {μ ι σ : Type} [Model μ ι] [Source σ] {i : ι} {m m' : μ} {s t : σ} {o : Option Word}

/-- Executes instructions one after the other. It gives the outputs, the machine and the rest
of the input, or the error of the first instruction that fails. -/
def executeAll : List ι → μ → σ → Except RuntimeError (List Word × μ × σ)
  | [], m, s => .ok ([], m, s)
  | i :: rest, m, s =>
    match execute i m s with
    | ⟨.error e, _, _⟩ => .error e
    | ⟨.ok o, m, s⟩ => (executeAll rest m s).map fun r => (o.toList ++ r.1, r.2)

theorem executeAll_cons (h : execute i m s = ⟨.ok o, m', t⟩) (rest : List ι) :
    executeAll (i :: rest) m s = (executeAll rest m' t).map fun r => (o.toList ++ r.1, r.2) := by
  simp only [executeAll, h]

theorem executeAll_cons_silent (h : execute i m s = ⟨.ok none, m', t⟩) (rest : List ι) :
    executeAll (i :: rest) m s = executeAll rest m' t := by
  rw [executeAll_cons h]
  cases executeAll rest m' t <;> rfl

end Sequence

theorem Word.toInt_iterate_advance {c : Word} {k : Nat}
    (h : c.toInt + k ≤ Int64.maxValue.toInt) : (Word.advance^[k] c).toInt = c.toInt + k := by
  induction k generalizing c with
  | zero => simp
  | succ k ih =>
    have hnext : c.advance.toInt = c.toInt + 1 := by
      rw [Word.toInt_advance]
      omega
    rw [Function.iterate_succ_apply, ih (by omega), hnext]
    omega

namespace AM1

def pushAll (xs : List Word) : List Instruction := xs.flatMap fun x => [.lit x, .push]

def callByReference (a : Address) (xs : List Word) (n : Word) : List Instruction :=
  .loada a :: .push :: pushAll xs ++ [.call n]

namespace Machine

def pass (w : Word) (m : Machine) : Machine :=
  { m with counter := m.counter.advance.advance, runtime := m.runtime.push w }

def passAll (xs : List Word) (m : Machine) : Machine :=
  { m with
    counter := Word.advance^[2 * xs.length] m.counter
    runtime := m.runtime ++ xs.toArray }

theorem passAll_cons (x : Word) (xs : List Word) (m : Machine) :
    (m.pass x).passAll xs = m.passAll (x :: xs) := by
  have hsteps : 2 * (xs.length + 1) = 2 * xs.length + 1 + 1 := by omega
  simp [pass, passAll, hsteps]

section Passing

variable {σ : Type} [Source σ] {m : Machine} {s : σ}

theorem executeAll_pass {i : Instruction} {w : Word}
    (hi : m.act i = .done { m with toCore := (m.push w).next } none)
    (hroom : m.runtime.size + 1 ≤ slotLimit) (rest : List Instruction) :
    executeAll (i :: .push :: rest) m s = executeAll rest (m.pass w) s := by
  have hpush : Model.act .push { m with toCore := (m.push w).next } = .done (m.pass w) none :=
    if_pos hroom
  rw [executeAll_cons_silent (execute_of_done hi), executeAll_cons_silent (execute_of_done hpush)]

theorem executeAll_pushAll (xs : List Word) (hroom : m.runtime.size + xs.length ≤ slotLimit)
    (rest : List Instruction) :
    executeAll (pushAll xs ++ rest) m s = executeAll rest (m.passAll xs) s := by
  induction xs generalizing m with
  | nil => simp [pushAll, passAll]
  | cons x xs ih =>
    rw [List.length_cons] at hroom
    have hsize : (m.pass x).runtime.size = m.runtime.size + 1 := by simp [pass]
    calc executeAll (pushAll (x :: xs) ++ rest) m s
        = executeAll (.lit x :: .push :: (pushAll xs ++ rest)) m s := rfl
      _ = executeAll (pushAll xs ++ rest) (m.pass x) s := executeAll_pass rfl (by omega) _
      _ = executeAll rest ((m.pass x).passAll xs) s := ih (by omega)
      _ = executeAll rest (m.passAll (x :: xs)) s := by rw [passAll_cons]

end Passing

/-- In a call that was made where the runtime stack was `base`, with the given arguments. -/
def inFrame (base args : Array Word) (back saved : Word) (core : Core) : Machine :=
  ⟨core, base ++ (args ++ #[back, saved]), Int64.ofNat (base.size + args.size + 2)⟩

theorem enter_passAll (m : Machine) (args : List Word) (n : Word) :
    (m.passAll args).enter n =
      inFrame m.runtime args.toArray ((m.passAll args).counter.addClamp 2) m.reference
        ((m.passAll args).jump n) := by
  simp [passAll, enter, inFrame]

section InFrame

variable {base args : Array Word} {back saved : Word} {core : Core}

theorem at?_inFrame_below {a : Int} (h : a ≤ base.size) :
    (inFrame base args back saved core).at? a = if 1 ≤ a then base[a.toNat - 1]? else none := by
  unfold at?
  split
  · exact Array.getElem?_append_left (by omega)
  · rfl

theorem at?_inFrame_above (k : Nat) :
    (inFrame base args back saved core).at? (base.size + k + 1) = (args ++ #[back, saved])[k]? := by
  have hindex : ((base.size : Int) + k + 1).toNat - 1 = base.size + k := by omega
  rw [at?, if_pos (by omega), hindex, inFrame, Array.getElem?_append_right (by omega),
    Nat.add_sub_cancel_left]

variable {σ : Type} [Source σ] {s : σ}

theorem execute_lit_inFrame (v : Word) :
    execute (.lit v) (inFrame base args back saved core) s =
      ⟨.ok none, inFrame base args back saved (core.next.push v), s⟩ :=
  rfl

variable (hroom : base.size + args.size + 2 ≤ slotLimit)
include hroom

theorem size_inFrame_le : (inFrame base args back saved core).runtime.size ≤ 2 ^ 20 := by
  have hsize : (inFrame base args back saved core).runtime.size = base.size + args.size + 2 := by
    simp [inFrame, Nat.add_assoc]
  unfold slotLimit at hroom
  omega

theorem toInt_reference_inFrame :
    (inFrame base args back saved core).reference.toInt = base.size + args.size + 2 := by
  have hlt : base.size + args.size + 2 < 2 ^ 63 := by
    unfold slotLimit at hroom
    omega
  exact Int64.toInt_ofNat_of_lt hlt

theorem at?_inFrame_return :
    (inFrame base args back saved core).at?
      ((inFrame base args back saved core).reference.toInt - 1) = some back := by
  have hplace : (base.size : Int) + args.size + 2 - 1 = base.size + args.size + 1 := by omega
  rw [toInt_reference_inFrame hroom, hplace, at?_inFrame_above,
    Array.getElem?_append_right (Nat.le_refl _)]
  simp

theorem at?_inFrame_saved :
    (inFrame base args back saved core).at?
      (inFrame base args back saved core).reference.toInt = some saved := by
  have hplace : (base.size : Int) + args.size + 2 = base.size + (args.size + 1 : Nat) + 1 := by
    omega
  rw [toInt_reference_inFrame hroom, hplace, at?_inFrame_above,
    Array.getElem?_append_right (Nat.le_succ _)]
  simp

theorem execute_ret_inFrame :
    execute (.ret (Int64.ofNat args.size)) (inFrame base args back saved core) s =
      ⟨.ok none, ⟨⟨back.jumpBias.advance, core.stack⟩, base, saved⟩, s⟩ := by
  have href : (inFrame base args back saved core).reference.toInt = base.size + args.size + 2 :=
    toInt_reference_inFrame hroom
  have hcount : (Int64.ofNat args.size).toInt = args.size := by
    unfold slotLimit at hroom
    exact Int64.toInt_ofNat_of_lt (by omega)
  -- what is kept of the runtime stack is the part of the caller
  have hkeep : (min ((inFrame base args back saved core).runtime.size : Int)
      ((base.size : Int) + args.size + 2 - 2 - args.size)).toNat = base.size := by
    simp [inFrame]
    omega
  have hact := act_ret (m := inFrame base args back saved core) (n := Int64.ofNat args.size)
    (size_inFrame_le hroom) (at?_inFrame_return hroom) (at?_inFrame_saved hroom)
  simp only [href, hcount, hkeep] at hact
  rw [if_neg (by omega)] at hact
  rw [execute_of_done hact]
  simp [inFrame]

section First

variable {a : Word} (hargs : args[0]? = some a) (hlo : 1 ≤ a.toInt) (hhi : a.toInt ≤ base.size)
include hargs hlo hhi

theorem execute_indirect_inFrame {kind : Access} (hstack : kind = .store → core.stack ≠ []) :
    ∃ w, base[a.toInt.toNat - 1]? = some w ∧
      execute (.indirect kind (Int64.ofInt (-(args.size + 1))))
        (inFrame base args back saved core) s =
        (inFrame base args back saved core).reach kind a.toInt w s := by
  have hsize : 0 < args.size := (Array.getElem?_eq_some_iff.1 hargs).1
  have hoffset : (Int64.ofInt (-((args.size : Int) + 1))).toInt = -(args.size + 1) := by
    unfold slotLimit at hroom
    exact Int64.toInt_ofInt_of_le (by omega) (by omega)
  -- the first argument is the one next to the runtime stack of the caller
  have hplace : (base.size : Int) + args.size + 2 + -(args.size + 1) =
      base.size + (0 : Nat) + 1 := by
    omega
  obtain ⟨w, hw⟩ : ∃ w, base[a.toInt.toNat - 1]? = some w :=
    ⟨_, Array.getElem?_eq_getElem (by omega)⟩
  refine ⟨w, hw, execute_indirect (size_inFrame_le hroom) s ?_ ?_ hstack⟩
  · rw [toInt_reference_inFrame hroom, hoffset, hplace, at?_inFrame_above,
      Array.getElem?_append_left hsize, hargs]
  · rw [at?_inFrame_below hhi, if_pos hlo, hw]

theorem execute_store_inFrame (v : Word) :
    execute (.indirect .store (Int64.ofInt (-(args.size + 1))))
      (inFrame base args back saved (core.push v)) s =
      ⟨.ok none,
        inFrame (base.setIfInBounds (a.toInt.toNat - 1) v) args back saved core.next, s⟩ := by
  have hstack : Access.store = .store → (core.push v).stack ≠ [] := by simp [Core.push]
  obtain ⟨w, -, hw⟩ := execute_indirect_inFrame (s := s) hroom hargs hlo hhi hstack
  have hslot : a.toInt.toNat - 1 < base.size := by omega
  rw [hw]
  simp only [reach, inFrame, Array.setIfInBounds_append_left hslot, Array.size_setIfInBounds]
  rfl

theorem execute_read_inFrame {v : Word} {t : σ} (hs : Source.next s = (some v, t)) :
    execute (.indirect .read (Int64.ofInt (-(args.size + 1))))
      (inFrame base args back saved core) s =
      ⟨.ok none,
        inFrame (base.setIfInBounds (a.toInt.toNat - 1) v) args back saved core.next, t⟩ := by
  have hstack : Access.read = .store → core.stack ≠ [] := by simp
  obtain ⟨w, -, hw⟩ := execute_indirect_inFrame (s := s) hroom hargs hlo hhi hstack
  have hslot : a.toInt.toNat - 1 < base.size := by omega
  rw [hw]
  simp only [reach, hs, inFrame, Array.setIfInBounds_append_left hslot, Array.size_setIfInBounds]
  rfl

theorem execute_write_inFrame :
    ∃ w, base[a.toInt.toNat - 1]? = some w ∧
      execute (.indirect .write (Int64.ofInt (-(args.size + 1))))
        (inFrame base args back saved core) s =
        ⟨.ok (some w), inFrame base args back saved core.next, s⟩ :=
  execute_indirect_inFrame hroom hargs hlo hhi (by simp)

end First

end InFrame

theorem returned_passAll {m : Machine} {args : List Word}
    (h : m.counter.toInt + 2 * args.length + 2 ≤ Int64.maxValue.toInt) :
    ((m.passAll args).counter.addClamp 2).jumpBias.advance =
      Int64.ofInt (m.counter.toInt + 2 * args.length + 1) := by
  have hcounter : (m.passAll args).counter.toInt = m.counter.toInt + 2 * args.length := by
    have hsteps := Word.toInt_iterate_advance (c := m.counter) (k := 2 * args.length) (by omega)
    rw [passAll, hsteps]
    omega
  have hlo := m.counter.le_toInt
  have hmax : Int64.maxValue.toInt = 2 ^ 63 - 1 := Int64.toInt_maxValue
  rw [← Int64.toInt_inj, Word.toInt_returned (by omega), hcounter,
    Int64.toInt_ofInt_of_le (by omega) (by omega)]

theorem executeAll_callByReference {σ : Type} [Source σ] {m : Machine} {xs : List Word}
    (hroom : m.runtime.size + xs.length + 3 ≤ slotLimit) (a : Address) (n : Word)
    (rest : List Instruction) (s : σ) :
    let args := m.resolve a :: xs
    executeAll (callByReference a xs n ++ rest) m s =
      executeAll rest (inFrame m.runtime args.toArray ((m.passAll args).counter.addClamp 2)
        m.reference ⟨n.jumpBias.advance, m.stack⟩) s := by
  intro args
  have hsize : (m.pass (m.resolve a)).runtime.size = m.runtime.size + 1 := by simp [pass]
  have hsize' : (m.passAll args).runtime.size = m.runtime.size + xs.length + 1 := by
    simp [passAll, args, Nat.add_assoc]
  have hcall := execute_call (m := m.passAll args) (by omega) n s
  calc executeAll (callByReference a xs n ++ rest) m s
      = executeAll (.loada a :: .push :: (pushAll xs ++ (.call n :: rest))) m s := by
        simp [callByReference]
    _ = executeAll (pushAll xs ++ (.call n :: rest)) (m.pass (m.resolve a)) s :=
        executeAll_pass rfl (by omega) _
    _ = executeAll (.call n :: rest) (m.passAll args) s := by
        rw [executeAll_pushAll xs (by omega), passAll_cons]
    _ = executeAll rest ((m.passAll args).enter n) s := executeAll_cons_silent hcall rest
    _ = _ := by rw [enter_passAll]; rfl

end Machine

open Machine in
/-- A variable that is passed by reference, with any further arguments, is the caller's own.
What the callee stores or reads through the argument is in the caller's slot after the return,
which leaves the rest of the machine as it was at the call; and what the callee writes through
the argument is the word in that slot. -/
theorem arguments_pass_by_reference {σ : Type} [Source σ] (m : Machine) (a : Address)
    (xs : List Word) (n v : Word) (s : σ)
    (hlo : 1 ≤ (m.resolve a).toInt) (hhi : (m.resolve a).toInt ≤ m.runtime.size)
    (hroom : m.runtime.size + xs.length + 3 ≤ slotLimit)
    (hcounter : m.counter.toInt + 2 * xs.length + 4 ≤ Int64.maxValue.toInt) :
    let slot := (m.resolve a).toInt.toNat - 1
    let offset := Int64.ofInt (-(xs.length + 2))
    let count := Int64.ofNat (xs.length + 1)
    let resumed : Machine := { m with counter := Int64.ofInt (m.counter.toInt + 2 * xs.length + 3) }
    let changed : Machine := { resumed with runtime := m.runtime.setIfInBounds slot v }
    executeAll (callByReference a xs n ++ [.lit v, .indirect .store offset, .ret count]) m s =
      .ok ([], changed, s) ∧
    (∀ t, Source.next s = (some v, t) →
      executeAll (callByReference a xs n ++ [.indirect .read offset, .ret count]) m s =
        .ok ([], changed, t)) ∧
    (∃ w, m.runtime[slot]? = some w ∧
      executeAll (callByReference a xs n ++ [.indirect .write offset, .ret count]) m s =
        .ok ([w], resumed, s)) := by
  intro slot offset count resumed changed
  let args := m.resolve a :: xs
  have hsize : args.toArray.size = xs.length + 1 := by simp [args]
  have hfirst : args.toArray[0]? = some (m.resolve a) := by simp [args]
  have hoffset : offset = Int64.ofInt (-(args.toArray.size + 1)) := by
    rw [hsize]
    congr 1
  have hcount : count = Int64.ofNat args.toArray.size := by rw [hsize]
  have hback : ((m.passAll args).counter.addClamp 2).jumpBias.advance = resumed.counter := by
    have hlength : args.length = xs.length + 1 := List.length_cons
    rw [returned_passAll (by omega), hlength]
    congr 1
    omega
  have hframe : m.runtime.size + args.toArray.size + 2 ≤ slotLimit := by omega
  have hframe' : (m.runtime.setIfInBounds slot v).size + args.toArray.size + 2 ≤ slotLimit := by
    rwa [Array.size_setIfInBounds]
  refine ⟨?_, fun t ht => ?_, ?_⟩
  · rw [executeAll_callByReference hroom, hoffset, hcount,
      executeAll_cons_silent (execute_lit_inFrame v),
      executeAll_cons_silent (execute_store_inFrame hframe hfirst hlo hhi v),
      executeAll_cons_silent (execute_ret_inFrame hframe'), hback]
    simp only [Core.next]
    rfl
  · rw [executeAll_callByReference hroom, hoffset, hcount,
      executeAll_cons_silent (execute_read_inFrame hframe hfirst hlo hhi ht),
      executeAll_cons_silent (execute_ret_inFrame hframe'), hback]
    simp only [Core.next]
    rfl
  · obtain ⟨w, hw, hwrite⟩ := execute_write_inFrame (s := s) hframe hfirst hlo hhi
    refine ⟨w, hw, ?_⟩
    rw [executeAll_callByReference hroom, hoffset, hcount, executeAll_cons hwrite,
      executeAll_cons_silent (execute_ret_inFrame hframe), hback]
    simp only [Core.next]
    rfl

def lender : Machine := ⟨⟨3, [9]⟩, #[10, 20, 30], 2⟩

theorem lender_lends_its_slot :
    let call := callByReference ⟨.localBase, -1⟩ [4, 5] 1
    let input : List Word := [7, 8]
    executeAll (call ++ [.lit 7, .indirect .store (-4), .ret 3]) lender input =
      .ok ([], ⟨⟨10, [9]⟩, #[7, 20, 30], 2⟩, [7, 8]) ∧
    executeAll (call ++ [.indirect .read (-4), .ret 3]) lender input =
      .ok ([], ⟨⟨10, [9]⟩, #[7, 20, 30], 2⟩, [8]) ∧
    executeAll (call ++ [.indirect .write (-4), .ret 3]) lender input =
      .ok ([10], ⟨⟨10, [9]⟩, #[10, 20, 30], 2⟩, [7, 8]) := by
  intro call input
  obtain ⟨hstore, hread, w, hw, hwrite⟩ := arguments_pass_by_reference lender ⟨.localBase, -1⟩
    [4, 5] 1 7 input (by decide) (by decide) (by decide) (by decide)
  obtain rfl : w = 10 := (Option.some.inj hw).symm
  exact ⟨hstore, hread [8] rfl, hwrite⟩

end AM1
end AbstractMachines
