import AbstractMachines.Proofs.Laws
import AbstractMachines.Proofs.Storage
import Mathlib.Algebra.Order.Ring.Int

/-!
# Addresses in exact arithmetic

Addresses are sums of words, and the machine clamps them. The same access can be
described with integers instead: the sum is exact, and the slot is missing if its
number is not that of a slot. Both descriptions agree, because a clamped number lies
at an end of the range of words and there is no slot so far out. So an access fails
exactly if the exact address is outside, and only the address in the error shows the
clamping. A return subtracts twice, and there the argument is the same.
-/

namespace AbstractMachines
namespace Word

def clamp (a : Int) : Int := max (-2 ^ 63) (min a (2 ^ 63 - 1))

theorem toInt_ofIntClamp (a : Int) : (Int64.ofIntClamp a).toInt = clamp a := by
  have hmin : Int64.minValue.toInt = -2 ^ 63 := by decide
  have hmax : Int64.maxValue.toInt = 2 ^ 63 - 1 := by decide
  unfold clamp Int64.ofIntClamp
  split
  · split
    · rw [Int64.toInt_ofIntLE]
      omega
    · omega
  · omega

theorem clamp_of_word (w : Word) : clamp w.toInt = w.toInt := by
  have hlo := w.le_toInt
  have hhi := w.toInt_lt
  unfold clamp
  omega

end Word

namespace AM1
namespace Machine

open Word

def place (m : Machine) (a : Address) : Int :=
  match a.base with
  | .globalBase => a.offset.toInt
  | .localBase => m.reference.toInt + a.offset.toInt

def Inside (m : Machine) (a : Int) : Prop := 1 ≤ a ∧ a ≤ m.runtime.size

def at? (m : Machine) (a : Int) : Option Word :=
  if 1 ≤ a then m.runtime[a.toNat - 1]? else none

/-- The reply to an access to the slot with number `a`, which holds `v`. -/
def reach {σ : Type} [Source σ] (kind : Access) (a : Int) (v : Word) (m : Machine) (s : σ) :
    Reply Machine σ :=
  let next := m.counter.advance
  match kind with
  | .load => ⟨.ok none, { m with counter := next, stack := v :: m.stack }, s⟩
  | .store =>
    match m.stack with
    | w :: rest =>
      ⟨.ok none, { m with
        counter := next, stack := rest, runtime := m.runtime.setIfInBounds (a.toNat - 1) w }, s⟩
    | [] => ⟨.error (.stackUnderflow m.counter 1 0), m, s⟩
  | .write => ⟨.ok (some v), { m with counter := next }, s⟩
  | .read =>
    match Source.next s with
    | (some w, t) =>
      ⟨.ok none, { m with counter := next, runtime := m.runtime.setIfInBounds (a.toNat - 1) w }, t⟩
    | (none, t) => ⟨.error (.inputExhausted m.counter), m, t⟩

theorem at?_isSome {m : Machine} {a : Int} : (m.at? a).isSome ↔ m.Inside a := by
  unfold at? Inside
  by_cases h : 1 ≤ a
  · simp only [if_pos h, isSome_getElem?]
    omega
  · simp [h]

theorem at?_eq_none_iff {m : Machine} {a : Int} : m.at? a = none ↔ ¬m.Inside a := by
  rw [← at?_isSome, Option.not_isSome_iff_eq_none]

theorem Inside.word {m : Machine} {a : Int} (h : m.Inside a) : ∃ v, m.at? a = some v :=
  Option.isSome_iff_exists.1 (at?_isSome.2 h)

theorem inside_of_at? {m : Machine} {a : Int} {v : Word} (h : m.at? a = some v) : m.Inside a := by
  rw [← at?_isSome, h]
  rfl

theorem slot?_eq_at? (m : Machine) (w : Word) : m.slot? w = m.at? w.toInt := by
  by_cases h : 1 ≤ w.toInt
  · rw [slot?_of_pos h, at?, if_pos h]
  · rw [slot?_of_nonpos (Int.not_le.1 h), at?, if_neg h]

theorem toInt_resolve (m : Machine) (a : Address) : (m.resolve a).toInt = clamp (m.place a) := by
  obtain ⟨base, offset⟩ := a
  cases base with
  | globalBase => exact (clamp_of_word offset).symm
  | localBase => exact toInt_ofIntClamp _

section Clamp

variable {m : Machine} (hm : m.runtime.size ≤ 2 ^ 20)
include hm

theorem clamp_of_inside {a : Int} (h : m.Inside a) : clamp a = a := by
  obtain ⟨hlo, hhi⟩ := h
  unfold clamp
  omega

theorem inside_clamp {a : Int} : m.Inside (clamp a) ↔ m.Inside a := by
  unfold Inside clamp
  omega

theorem at?_clamp (a : Int) : m.at? (clamp a) = m.at? a := by
  by_cases h : m.Inside a
  · rw [clamp_of_inside hm h]
  · rw [at?_eq_none_iff.2 h, at?_eq_none_iff.2 (mt (inside_clamp hm).1 h)]

theorem shrink_of_clamp {w : Word} {keep : Int} (h : w.toInt = clamp keep) :
    m.runtime.shrink w.toNatClampNeg = m.runtime.take (min (m.runtime.size : Int) keep).toNat := by
  rw [Array.shrink_eq_take, ← Int64.toNat_toInt, h, Array.take_eq_extract, Array.take_eq_extract]
  by_cases hle : keep ≤ m.runtime.size
  · congr 1
    unfold clamp
    omega
  -- more than there are slots, clamped or not: all of them stay
  · rw [Array.extract_eq_self_of_le (by unfold clamp; omega),
      Array.extract_eq_self_of_le (by omega)]

theorem slot?_ofIntClamp (a : Int) : m.slot? (Int64.ofIntClamp a) = m.at? a := by
  rw [slot?_eq_at?, toInt_ofIntClamp, at?_clamp hm]

end Clamp

section Access

variable {σ : Type} [Source σ] {i : Instruction} {kind : Access} {m : Machine} {w v : Word} (s : σ)

theorem execute_of_access (hi : m.act i = m.access kind w) (hv : m.slot? w = some v) :
    execute i m s = m.reach kind w.toInt v s := by
  have hindex : w.toInt.toNat = w.toNatClampNeg := w.toNat_toInt
  cases kind with
  | load =>
    have ha : m.act i = .done { m with toCore := (m.push v).next } none := by
      rw [hi]
      simp only [access, hv]
    rw [execute_of_done ha]
    rfl
  | store =>
    cases hs : m.stack with
    | nil =>
      have ha : m.act i = .fail m (.stackUnderflow m.counter 1 0) := by
        rw [hi]
        simp [access, hs, Core.underflow]
      rw [execute_of_fail ha]
      simp only [reach, hs]
    | cons u rest =>
      have ha : m.act i = .done ({ m with stack := rest }.assign w u).advance none := by
        rw [hi]
        simp only [access, hs, hv]
      rw [execute_of_done ha]
      simp only [reach, hs, hindex]
      rfl
  | write =>
    have ha : m.act i = .done m.advance (some v) := by
      rw [hi]
      simp only [access, hv]
    rw [execute_of_done ha]
    rfl
  | read =>
    have ha : m.act i = .read m w := by
      rw [hi]
      simp only [access, hv]
    rcases hs : Source.next s with ⟨_ | u, t⟩
    · rw [execute_of_starved ha hs]
      simp only [reach, hs]
      rfl
    · rw [execute_of_read ha hs]
      simp only [reach, hs, hindex]
      rfl

theorem execute_of_missing (hi : m.act i = m.access kind w) (hv : m.slot? w = none)
    (hstack : kind = .store → m.stack ≠ []) :
    execute i m s = ⟨.error (.missingAddress m.counter w), m, s⟩ := by
  apply execute_of_fail
  rw [model_act, hi]
  cases kind with
  | load => simp only [access, hv, missing]
  | store =>
    obtain ⟨u, rest, hs⟩ := List.exists_cons_of_ne_nil (hstack rfl)
    simp only [access, hs, hv, missing]
  | write => simp only [access, hv, missing]
  | read => simp only [access, hv, missing]

theorem reach_ne_missing (kind : Access) (a : Int) (v : Word) (m : Machine) (c b : Word) :
    (m.reach kind a v s).outcome ≠ .error (.missingAddress c b) := by
  cases kind with
  | load => simp [reach]
  | store => cases hs : m.stack <;> simp [reach, hs]
  | write => simp [reach]
  | read => rcases hs : Source.next s with ⟨_ | u, t⟩ <;> simp [reach, hs]

theorem reach_read_exhausted_iff (a : Int) (v : Word) (m : Machine) (c : Word) :
    (m.reach .read a v s).outcome = .error (.inputExhausted c) ↔
      (Source.next s).1 = none ∧ c = m.counter := by
  rcases hs : Source.next s with ⟨_ | u, t⟩ <;> simp [reach, hs, eq_comm]

end Access

section Exact

variable {σ : Type} [Source σ] {m : Machine} (hm : m.runtime.size ≤ 2 ^ 20)
variable {kind : Access} {a : Address} {o v : Word} (s : σ)

section
include hm

theorem execute_direct (hv : m.at? (m.place a) = some v) :
    execute (.direct kind a) m s = m.reach kind (m.place a) v s := by
  have hplace : (m.resolve a).toInt = m.place a := by
    rw [toInt_resolve, clamp_of_inside hm (inside_of_at? hv)]
  rw [← hplace] at hv ⊢
  exact execute_of_access s rfl (by rw [slot?_eq_at?, hv])

theorem execute_direct_outside (hout : ¬m.Inside (m.place a))
    (hstack : kind = .store → m.stack ≠ []) :
    execute (.direct kind a) m s = ⟨.error (.missingAddress m.counter (m.resolve a)), m, s⟩ := by
  have hnone : m.slot? (m.resolve a) = none := by
    rw [slot?_eq_at?, toInt_resolve, at?_clamp hm, at?_eq_none_iff.2 hout]
  exact execute_of_missing s rfl hnone hstack

theorem act_indirect (hstack : kind = .store → m.stack ≠ []) :
    m.act (.indirect kind o) =
      match m.at? (m.reference.toInt + o.toInt) with
      | some b => m.access kind b
      | none => m.missing (m.reference.addClamp o) := by
  have hslot : m.slot? (m.reference.addClamp o) = m.at? (m.reference.toInt + o.toInt) :=
    slot?_ofIntClamp hm _
  rw [act, accessIndirect, if_neg fun h => hstack h.1 h.2]
  cases hb : m.at? (m.reference.toInt + o.toInt) with
  | none => simp only [hslot, hb]
  | some b => simp only [hslot, hb]

theorem execute_indirect {b : Word} (hb : m.at? (m.reference.toInt + o.toInt) = some b)
    (hv : m.at? b.toInt = some v) (hstack : kind = .store → m.stack ≠ []) :
    execute (.indirect kind o) m s = m.reach kind b.toInt v s := by
  apply execute_of_access s _ (by rw [slot?_eq_at?, hv])
  rw [act_indirect hm hstack, hb]

theorem execute_indirect_stray {b : Word} (hb : m.at? (m.reference.toInt + o.toInt) = some b)
    (hout : ¬m.Inside b.toInt) (hstack : kind = .store → m.stack ≠ []) :
    execute (.indirect kind o) m s = ⟨.error (.missingAddress m.counter b), m, s⟩ := by
  apply execute_of_missing s _ (by rw [slot?_eq_at?, at?_eq_none_iff.2 hout]) hstack
  rw [act_indirect hm hstack, hb]

theorem execute_indirect_outside (hout : ¬m.Inside (m.reference.toInt + o.toInt))
    (hstack : kind = .store → m.stack ≠ []) :
    execute (.indirect kind o) m s =
      ⟨.error (.missingAddress m.counter (m.reference.addClamp o)), m, s⟩ := by
  apply execute_of_fail
  rw [model_act, act_indirect hm hstack, at?_eq_none_iff.2 hout]
  rfl

theorem direct_missing_iff (hstack : kind = .store → m.stack ≠ []) (c b : Word) :
    (execute (.direct kind a) m s).outcome = .error (.missingAddress c b) ↔
      ¬m.Inside (m.place a) ∧ c = m.counter ∧ b.toInt = clamp (m.place a) := by
  by_cases h : m.Inside (m.place a)
  · obtain ⟨v, hv⟩ := h.word
    rw [execute_direct hm s hv]
    exact ⟨fun h' => absurd h' (reach_ne_missing s _ _ _ _ c b), fun hout => absurd h hout.1⟩
  · rw [execute_direct_outside hm s h hstack, ← toInt_resolve, Int64.toInt_inj]
    simp [h, eq_comm]

theorem indirect_missing_iff (hstack : kind = .store → m.stack ≠ []) (c b : Word) :
    let pointer := m.reference.toInt + o.toInt
    (execute (.indirect kind o) m s).outcome = .error (.missingAddress c b) ↔
      c = m.counter ∧ ((¬m.Inside pointer ∧ b.toInt = clamp pointer) ∨
        (m.at? pointer = some b ∧ ¬m.Inside b.toInt)) := by
  intro pointer
  cases hp : m.at? pointer with
  | none =>
    have hout : ¬m.Inside pointer := at?_eq_none_iff.1 hp
    have hclamp : (m.reference.addClamp o).toInt = clamp pointer := toInt_ofIntClamp _
    rw [execute_indirect_outside hm s hout hstack, ← hclamp, Int64.toInt_inj]
    simp [hout, eq_comm]
  | some p =>
    have hin : m.Inside pointer := inside_of_at? hp
    by_cases h : m.Inside p.toInt
    · obtain ⟨v, hv⟩ := h.word
      rw [execute_indirect hm s hp hv hstack]
      refine ⟨fun h' => absurd h' (reach_ne_missing s _ _ _ _ c b), ?_⟩
      rintro ⟨-, ⟨hout, -⟩ | ⟨hb, hout⟩⟩
      · exact absurd hin hout
      · exact absurd (Option.some.inj hb ▸ h) hout
    · rw [execute_indirect_stray hm s hp h hstack]
      constructor
      · intro hmissing
        simp only [Except.error.injEq, RuntimeError.missingAddress.injEq] at hmissing
        obtain ⟨rfl, rfl⟩ := hmissing
        exact ⟨rfl, Or.inr ⟨rfl, h⟩⟩
      · rintro ⟨rfl, ⟨hout, -⟩ | ⟨hb, -⟩⟩
        · exact absurd hin hout
        · rw [Option.some.inj hb]

theorem direct_exhausted_iff (c : Word) :
    (execute (.direct .read a) m s).outcome = .error (.inputExhausted c) ↔
      m.Inside (m.place a) ∧ (Source.next s).1 = none ∧ c = m.counter := by
  by_cases h : m.Inside (m.place a)
  · obtain ⟨v, hv⟩ := h.word
    rw [execute_direct hm s hv, reach_read_exhausted_iff]
    simp [h]
  · rw [execute_direct_outside hm s h (by simp)]
    simp [h]

theorem indirect_exhausted_iff (c : Word) :
    (execute (.indirect .read o) m s).outcome = .error (.inputExhausted c) ↔
      (∃ b, m.at? (m.reference.toInt + o.toInt) = some b ∧ m.Inside b.toInt) ∧
        (Source.next s).1 = none ∧ c = m.counter := by
  cases hp : m.at? (m.reference.toInt + o.toInt) with
  | none =>
    rw [execute_indirect_outside hm s (at?_eq_none_iff.1 hp) (by simp)]
    simp
  | some p =>
    by_cases h : m.Inside p.toInt
    · obtain ⟨v, hv⟩ := h.word
      rw [execute_indirect hm s hp hv (by simp), reach_read_exhausted_iff]
      simp [h]
    · rw [execute_indirect_stray hm s hp h (by simp)]
      simp [h]

theorem act_ret {n target saved : Word} (htarget : m.at? (m.reference.toInt - 1) = some target)
    (hsaved : m.at? m.reference.toInt = some saved) :
    let keep := m.reference.toInt - 2 - n.toInt
    m.act (.ret n) =
      if keep < 0 then m.missing ((m.reference.subClamp 2).subClamp n)
      else .done { m with
        counter := target.jumpBias.advance
        runtime := m.runtime.take (min (m.runtime.size : Int) keep).toNat
        reference := saved } none := by
  intro keep
  have hlo := (inside_of_at? htarget).1
  have hmax := m.reference.toInt_le
  have hreturn : m.slot? (m.reference.subClamp 1) = some target := by
    rw [← htarget]
    exact slot?_ofIntClamp hm _
  have hframe : m.slot? m.reference = some saved := by rw [slot?_eq_at?, hsaved]
  have htwo : (m.reference.subClamp 2).toInt = m.reference.toInt - 2 :=
    Word.toInt_subClamp (by simp; omega) (by simp; omega)
  have hkeep : ((m.reference.subClamp 2).subClamp n).toInt = clamp keep := by
    rw [Word.subClamp, toInt_ofIntClamp, htwo]
  have hneg : (m.reference.subClamp 2).subClamp n < 0 ↔ keep < 0 := by
    rw [Int64.lt_iff_toInt_lt, hkeep, Int64.toInt_zero]
    unfold clamp
    omega
  simp only [act, ret, hreturn, hframe, hneg, shrink_of_clamp hm hkeep]
  rfl

theorem act_ret_stray {n : Word}
    (h : m.at? (m.reference.toInt - 1) = none ∨ m.at? m.reference.toInt = none) :
    ∃ b, m.act (.ret n) = m.missing b := by
  have hreturn : m.slot? (m.reference.subClamp 1) = m.at? (m.reference.toInt - 1) :=
    slot?_ofIntClamp hm _
  cases htarget : m.at? (m.reference.toInt - 1) with
  | none => exact ⟨m.reference.subClamp 1, by simp only [act, ret, hreturn, htarget]⟩
  | some target =>
    have hsaved : m.slot? m.reference = none := by
      rw [slot?_eq_at?]
      exact h.resolve_left (by simp [htarget])
    exact ⟨m.reference, by simp only [act, ret, hreturn, htarget, hsaved]⟩

theorem execute_return {n : Word} (hlo : 2 ≤ m.reference.toInt)
    (hhi : m.reference.toInt ≤ m.runtime.size) (hn : n.toInt ≤ m.reference.toInt - 2) :
    ∃ target saved, m.at? (m.reference.toInt - 1) = some target ∧
      m.at? m.reference.toInt = some saved ∧
      execute (.ret n) m s = ⟨.ok none, { m with
        counter := target.jumpBias.advance
        runtime := m.runtime.take (min (m.runtime.size : Int) (m.reference.toInt - 2 - n.toInt)).toNat
        reference := saved }, s⟩ := by
  have hreturn : m.Inside (m.reference.toInt - 1) := ⟨by omega, by omega⟩
  have hframe : m.Inside m.reference.toInt := ⟨by omega, hhi⟩
  obtain ⟨target, htarget⟩ := hreturn.word
  obtain ⟨saved, hsaved⟩ := hframe.word
  refine ⟨target, saved, htarget, hsaved, execute_of_done ?_⟩
  rw [model_act, act_ret hm htarget hsaved, if_neg (by omega)]

theorem ret_succeeds_iff (n : Word) :
    (∃ out, (execute (.ret n) m s).outcome = .ok out) ↔
      2 ≤ m.reference.toInt ∧ m.reference.toInt ≤ m.runtime.size ∧
        n.toInt ≤ m.reference.toInt - 2 := by
  constructor
  · rintro ⟨out, hout⟩
    have hfound : ∀ b, m.act (.ret n) ≠ m.missing b := by
      intro b hb
      rw [execute_of_fail hb] at hout
      simp at hout
    cases htarget : m.at? (m.reference.toInt - 1) with
    | none =>
      obtain ⟨b, hb⟩ := act_ret_stray hm (n := n) (Or.inl htarget)
      exact absurd hb (hfound b)
    | some target =>
      cases hsaved : m.at? m.reference.toInt with
      | none =>
        obtain ⟨b, hb⟩ := act_ret_stray hm (n := n) (Or.inr hsaved)
        exact absurd hb (hfound b)
      | some saved =>
        have hlo := (inside_of_at? htarget).1
        have hhi := (inside_of_at? hsaved).2
        by_cases hkeep : m.reference.toInt - 2 - n.toInt < 0
        · exact absurd ((act_ret hm htarget hsaved).trans (if_pos hkeep)) (hfound _)
        · omega
  · rintro ⟨hlo, hhi, hn⟩
    obtain ⟨target, saved, -, -, hret⟩ := execute_return hm s hlo hhi hn
    exact ⟨none, by rw [hret]⟩

end

theorem execute_of_nil {i : Instruction} (hstack : m.stack = [])
    (hi : (∃ a, i = .direct .store a) ∨ (∃ o, i = .indirect .store o) ∨ i = .push) :
    execute i m s = ⟨.error (.stackUnderflow m.counter 1 0), m, s⟩ := by
  apply execute_of_fail
  rcases hi with ⟨a, rfl⟩ | ⟨o, rfl⟩ | rfl
  · simp [act, access, hstack, Core.underflow]
  · simp [act, accessIndirect, hstack, Core.underflow]
  · simp [act, pushSlot, hstack, Core.underflow]

end Exact

end Machine

open Word

/-- What an access or a return does, in terms of integers. An instruction that takes a
word from an empty operand stack fails before it looks at an address, and one that
reads looks at the address before it asks for a word. -/
theorem failures_are_exact {m : Machine} (hm : m.runtime.size ≤ 2 ^ 20) {σ : Type} [Source σ]
    (s : σ) :
    let size : Int := m.runtime.size
    let frame := m.reference.toInt
    (∀ kind a, (kind = .store → m.stack ≠ []) →
      (∀ c b, (execute (.direct kind a) m s).outcome = .error (.missingAddress c b) ↔
        ¬m.Inside (m.place a) ∧ c = m.counter ∧ b.toInt = clamp (m.place a)) ∧
      (∀ v, m.at? (m.place a) = some v →
        execute (.direct kind a) m s = m.reach kind (m.place a) v s)) ∧
    (∀ kind (o : Word), (kind = .store → m.stack ≠ []) →
      (∀ c b, (execute (.indirect kind o) m s).outcome = .error (.missingAddress c b) ↔
        c = m.counter ∧ ((¬m.Inside (frame + o.toInt) ∧ b.toInt = clamp (frame + o.toInt)) ∨
          (m.at? (frame + o.toInt) = some b ∧ ¬m.Inside b.toInt))) ∧
      (∀ b v, m.at? (frame + o.toInt) = some b → m.at? b.toInt = some v →
        execute (.indirect kind o) m s = m.reach kind b.toInt v s)) ∧
    (∀ n : Word,
      ((∃ out, (execute (.ret n) m s).outcome = .ok out) ↔
        2 ≤ frame ∧ frame ≤ size ∧ n.toInt ≤ frame - 2) ∧
      (2 ≤ frame → frame ≤ size → n.toInt ≤ frame - 2 →
        ∃ target saved, m.at? (frame - 1) = some target ∧ m.at? frame = some saved ∧
          execute (.ret n) m s = ⟨.ok none, { m with
            counter := target.jumpBias.advance
            runtime := m.runtime.take (min size (frame - 2 - n.toInt)).toNat
            reference := saved }, s⟩)) ∧
    (m.stack = [] → ∀ i,
      (∃ a, i = .direct .store a) ∨ (∃ o, i = .indirect .store o) ∨ i = .push →
        execute i m s = ⟨.error (.stackUnderflow m.counter 1 0), m, s⟩) ∧
    (∀ a c, (execute (.direct .read a) m s).outcome = .error (.inputExhausted c) ↔
      m.Inside (m.place a) ∧ (Source.next s).1 = none ∧ c = m.counter) ∧
    (∀ (o : Word) c, (execute (.indirect .read o) m s).outcome = .error (.inputExhausted c) ↔
      (∃ b, m.at? (frame + o.toInt) = some b ∧ m.Inside b.toInt) ∧
        (Source.next s).1 = none ∧ c = m.counter) := by
  intro size frame
  refine ⟨fun kind a hstack => ?_, fun kind o hstack => ?_, fun n => ?_, fun hstack i hi => ?_,
    fun a c => ?_, fun o c => ?_⟩
  · exact ⟨Machine.direct_missing_iff hm s hstack, fun v hv => Machine.execute_direct hm s hv⟩
  · exact ⟨Machine.indirect_missing_iff hm s hstack,
      fun b v hb hv => Machine.execute_indirect hm s hb hv hstack⟩
  · exact ⟨Machine.ret_succeeds_iff hm s n, Machine.execute_return hm s⟩
  · exact Machine.execute_of_nil s hstack hi
  · exact Machine.direct_exhausted_iff hm s c
  · exact Machine.indirect_exhausted_iff hm s c

/-- Slots two and three are those of a call; slot four points nowhere. -/
def inCall : Machine := { counter := 4, stack := [6], runtime := #[5, 8, 9, -1], reference := 3 }

theorem inCall_is_exact :
    let input : List Word := []
    let far : Address := ⟨.localBase, Int64.maxValue⟩
    (execute (.direct .store far) inCall input).outcome =
      .error (.missingAddress 4 Int64.maxValue) ∧
    execute (.direct .store ⟨.localBase, 1⟩) inCall input = inCall.reach .store 4 (-1) input ∧
    (execute (.indirect .write 1) inCall input).outcome = .error (.missingAddress 4 (-1)) ∧
    execute (.indirect .load (-2)) { inCall with runtime := #[2, 8, 9, -1] } input =
      { inCall with runtime := #[2, 8, 9, -1] }.reach .load 2 8 input ∧
    (execute (.ret Int64.minValue) inCall input).machine =
      { inCall with counter := 7, reference := 9 } ∧
    ¬(∃ out, (execute (.ret 2) inCall input).outcome = .ok out) ∧
    execute .push { inCall with stack := [] } input =
      ⟨.error (.stackUnderflow 4 1 0), { inCall with stack := [] }, input⟩ ∧
    (execute (.direct .read far) inCall input).outcome ≠ .error (.inputExhausted 4) ∧
    (execute (.direct .read ⟨.localBase, 0⟩) inCall input).outcome =
      .error (.inputExhausted 4) := by
  intro input far
  have hsize : inCall.runtime.size ≤ 2 ^ 20 := by decide
  obtain ⟨hdirect, hindirect, hret, -, hread, -⟩ := failures_are_exact hsize input
  obtain ⟨-, hpointer, -⟩ := failures_are_exact (m := { inCall with runtime := #[2, 8, 9, -1] })
    (by decide) input
  obtain ⟨-, -, -, hnil, -⟩ := failures_are_exact (m := { inCall with stack := [] }) hsize input
  obtain ⟨target, saved, htarget, hsaved, hreturn⟩ :=
    (hret Int64.minValue).2 (by decide) (by decide) (by decide)
  refine ⟨?_, ?_, ?_, ?_, ?_, ?_, ?_, ?_, ?_⟩
  · exact ((hdirect .store far (by decide)).1 4 Int64.maxValue).2
      ⟨fun h => absurd h.2 (by decide), rfl, by decide⟩
  · exact (hdirect .store ⟨.localBase, 1⟩ (by decide)).2 (-1) (by decide)
  · exact ((hindirect .write 1 (by decide)).1 4 (-1)).2
      ⟨rfl, Or.inr ⟨by decide, fun h => absurd h.1 (by decide)⟩⟩
  · exact (hpointer .load (-2) (by decide)).2 2 8 (by decide) (by decide)
  · obtain rfl : 8 = target := Option.some.inj htarget
    obtain rfl : 9 = saved := Option.some.inj hsaved
    rw [hreturn]
    decide
  · exact mt (hret 2).1.1 (by decide)
  · exact hnil rfl .push (Or.inr (Or.inr rfl))
  · exact mt (hread far 4).1 fun h => absurd h.1.2 (by decide)
  · exact (hread ⟨.localBase, 0⟩ 4).2 ⟨⟨by decide, by decide⟩, rfl, rfl⟩

end AM1
end AbstractMachines
