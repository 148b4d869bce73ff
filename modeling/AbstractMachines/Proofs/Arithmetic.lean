import AbstractMachines.Operator
import Mathlib.Data.Int.ModEq
import Mathlib.Data.Rat.Floor

/-!
# Operators over the integers

Each operator has a value over the integers, and the word it gives is that value
reduced to the range of words. Only sums, differences and products need the
reduction in general. A quotient needs it in one case, the least word divided by
minus one, and a remainder or a comparison never does.

Division starts from the truncated quotient. The truncated remainder is smaller
than the divisor, and if it lies on the wrong side of zero then adding the divisor
once brings it to the right side. A remainder on the right side belongs to one
quotient only, and that is the floor.
-/

namespace AbstractMachines
namespace Word

def Between (r b : Int) : Prop := (0 < b → 0 ≤ r ∧ r < b) ∧ (b < 0 → b < r ∧ r ≤ 0)

def InRange (i : Int) : Prop := Int64.minValue.toInt ≤ i ∧ i ≤ Int64.maxValue.toInt

theorem floor_eq_of_between {a b q : Int} (hb : b ≠ 0) (h : Between (a - b * q) b) :
    ⌊(a : ℚ) / b⌋ = q := by
  rw [Int.floor_eq_iff]
  rcases lt_or_gt_of_ne hb with hneg | hpos
  · obtain ⟨hlo, hhi⟩ := h.2 hneg
    have hneg' : (b : ℚ) < 0 := by exact_mod_cast hneg
    rw [le_div_iff_of_neg hneg', div_lt_iff_of_neg hneg']
    constructor
    · have : a ≤ q * b := by linarith
      exact_mod_cast this
    · have : (q + 1) * b < a := by linarith
      exact_mod_cast this
  · obtain ⟨hlo, hhi⟩ := h.1 hpos
    have hpos' : (0 : ℚ) < b := by exact_mod_cast hpos
    rw [le_div_iff₀ hpos', div_lt_iff₀ hpos']
    constructor
    · have : q * b ≤ a := by linarith
      exact_mod_cast this
    · have : a < (q + 1) * b := by linarith
      exact_mod_cast this

section Correction

variable {a b : Word}

theorem misplaced_iff (r b : Word) :
    Misplaced r b ↔ r.toInt ≠ 0 ∧ ¬(r.toInt < 0 ↔ b.toInt < 0) := by
  simp only [Misplaced, Int64.lt_iff_toInt_lt, Int64.toInt_zero, ne_eq, ← Int64.toInt_inj]

theorem toInt_ne_zero (hb : b ≠ 0) : b.toInt ≠ 0 :=
  fun h => hb (Int64.toInt_inj.1 h)

theorem natAbs_mod_lt (a : Word) (hb : b ≠ 0) : (a % b).toInt.natAbs < b.toInt.natAbs := by
  have hpos := Int.natAbs_pos.2 (toInt_ne_zero hb)
  rw [Int64.toInt_mod, Int.natAbs_tmod]
  exact Nat.mod_lt _ hpos

theorem between_of_misplaced (hb : b ≠ 0) (h : Misplaced (a % b) b) :
    Between ((a % b).toInt + b.toInt) b.toInt := by
  obtain ⟨hr, hsign⟩ := (misplaced_iff _ _).1 h
  have hlt := natAbs_mod_lt a hb
  unfold Between
  omega

theorem between_of_not_misplaced (hb : b ≠ 0) (h : ¬Misplaced (a % b) b) :
    Between (a % b).toInt b.toInt := by
  rw [misplaced_iff] at h
  have hlt := natAbs_mod_lt a hb
  unfold Between
  omega

theorem mul_tdiv_add_mod (a b : Word) :
    b.toInt * a.toInt.tdiv b.toInt + (a % b).toInt = a.toInt := by
  rw [Int64.toInt_mod]
  exact Int.mul_tdiv_add_tmod a.toInt b.toInt

theorem floor_of_misplaced (hb : b ≠ 0) (h : Misplaced (a % b) b) :
    ⌊(a.toInt : ℚ) / b.toInt⌋ = a.toInt.tdiv b.toInt - 1 := by
  apply floor_eq_of_between (toInt_ne_zero hb)
  have hrest : a.toInt - b.toInt * (a.toInt.tdiv b.toInt - 1) = (a % b).toInt + b.toInt := by
    linarith [mul_tdiv_add_mod a b]
  rw [hrest]
  exact between_of_misplaced hb h

theorem floor_of_not_misplaced (hb : b ≠ 0) (h : ¬Misplaced (a % b) b) :
    ⌊(a.toInt : ℚ) / b.toInt⌋ = a.toInt.tdiv b.toInt := by
  apply floor_eq_of_between (toInt_ne_zero hb)
  have hrest : a.toInt - b.toInt * a.toInt.tdiv b.toInt = (a % b).toInt := by
    linarith [mul_tdiv_add_mod a b]
  rw [hrest]
  exact between_of_not_misplaced hb h

theorem not_overflowing_of_misplaced (hb : b ≠ 0) (h : Misplaced (a % b) b) : b ≠ -1 := by
  rintro rfl
  have hr := ((misplaced_iff _ _).1 h).1
  have hlt := natAbs_mod_lt a hb
  have hone : (-1 : Word).toInt.natAbs = 1 := by decide
  omega

theorem toInt_div_of_misplaced (hb : b ≠ 0) (h : Misplaced (a % b) b) :
    (a / b).toInt = a.toInt.tdiv b.toInt :=
  Int64.toInt_div_of_ne_right a b (not_overflowing_of_misplaced hb h)

theorem inRange_iff {i : Int} : InRange i ↔ -2 ^ 63 ≤ i ∧ i ≤ 2 ^ 63 - 1 := by
  rw [InRange, Int64.toInt_minValue, Int64.toInt_maxValue]

theorem inRange_toInt (w : Word) : InRange w.toInt := ⟨w.minValue_le_toInt, w.toInt_le⟩

theorem inRange_div_sub_one (hb : b ≠ 0) (h : Misplaced (a % b) b) :
    InRange ((a / b).toInt - 1) := by
  have hr := ((misplaced_iff _ _).1 h).1
  have hlt := natAbs_mod_lt a hb
  have ha : a.toInt ≠ 0 := by
    intro hzero
    rw [Int64.toInt_mod, hzero, Int.zero_tmod] at hr
    exact hr rfl
  -- the divisor is at least two in size, so the quotient is smaller than the dividend
  have hsmall : (a / b).toInt.natAbs < a.toInt.natAbs := by
    rw [toInt_div_of_misplaced hb h, Int.natAbs_tdiv]
    exact Nat.div_lt_self (by omega) (by omega)
  have hrange := inRange_toInt a
  rw [inRange_iff] at hrange ⊢
  omega

theorem inRange_mod_add (hb : b ≠ 0) (h : Misplaced (a % b) b) :
    InRange ((a % b).toInt + b.toInt) := by
  have hbetween := between_of_misplaced hb h
  have hzero := toInt_ne_zero hb
  have hrange := inRange_toInt b
  unfold Between at hbetween
  rw [inRange_iff] at hrange ⊢
  omega

end Correction

theorem bmod_of_inRange {i : Int} (h : InRange i) : i.bmod (2 ^ 64) = i := by
  rw [inRange_iff] at h
  exact Int.bmod_eq_of_le (by omega) (by omega)

theorem floorDiv?_eq_none_iff {a b : Word} : floorDiv? a b = none ↔ b = 0 := by
  simp [floorDiv?]

theorem floorMod?_eq_none_iff {a b : Word} : floorMod? a b = none ↔ b = 0 := by
  simp [floorMod?]

theorem ne_zero_of_floorDiv? {a b q : Word} (h : floorDiv? a b = some q) : b ≠ 0 :=
  fun hb => by simp [floorDiv?_eq_none_iff.2 hb] at h

theorem ne_zero_of_floorMod? {a b r : Word} (h : floorMod? a b = some r) : b ≠ 0 :=
  fun hb => by simp [floorMod?_eq_none_iff.2 hb] at h

theorem toInt_floorDiv? {a b q : Word} (h : floorDiv? a b = some q) :
    q.toInt = ⌊(a.toInt : ℚ) / b.toInt⌋.bmod (2 ^ 64) := by
  have hb := ne_zero_of_floorDiv? h
  rw [floorDiv?, if_neg hb, Option.some.injEq] at h
  subst h
  split
  · next hm => rw [floor_of_misplaced hb hm, Int64.toInt_sub, toInt_div_of_misplaced hb hm]; rfl
  · next hm => rw [floor_of_not_misplaced hb hm, Int64.toInt_div]

theorem toInt_floorMod? {a b r : Word} (h : floorMod? a b = some r) :
    r.toInt = a.toInt - b.toInt * ⌊(a.toInt : ℚ) / b.toInt⌋ ∧ Between r.toInt b.toInt := by
  have hb := ne_zero_of_floorMod? h
  have hdiv := mul_tdiv_add_mod a b
  rw [floorMod?, if_neg hb, Option.some.injEq] at h
  subst h
  split
  · next hm =>
    have hsum : (a % b + b).toInt = (a % b).toInt + b.toInt := by
      rw [Int64.toInt_add, bmod_of_inRange (inRange_mod_add hb hm)]
    rw [floor_of_misplaced hb hm, hsum]
    exact ⟨by linarith, between_of_misplaced hb hm⟩
  · next hm =>
    rw [floor_of_not_misplaced hb hm]
    exact ⟨by linarith, between_of_not_misplaced hb hm⟩

theorem floorDiv?_exact_iff {a b q : Word} (h : floorDiv? a b = some q) :
    q.toInt = ⌊(a.toInt : ℚ) / b.toInt⌋ ↔ ¬(a = Int64.minValue ∧ b = -1) := by
  have hb := ne_zero_of_floorDiv? h
  constructor
  · rintro hexact ⟨rfl, rfl⟩
    have hfloor : ⌊((Int64.minValue : Word).toInt : ℚ) / (-1 : Word).toInt⌋ = 2 ^ 63 := by
      rw [floor_of_not_misplaced (by decide) (by decide)]
      decide
    have hle := q.toInt_lt
    omega
  · intro hne
    have htdiv : (a / b).toInt = a.toInt.tdiv b.toInt := by
      by_cases ha : a = Int64.minValue
      · exact Int64.toInt_div_of_ne_right a b fun hone => hne ⟨ha, hone⟩
      · exact Int64.toInt_div_of_ne_left a b ha
    rw [toInt_floorDiv? h]
    by_cases hm : Misplaced (a % b) b
    · rw [floor_of_misplaced hb hm, ← htdiv, bmod_of_inRange (inRange_div_sub_one hb hm)]
    · rw [floor_of_not_misplaced hb hm, ← htdiv, bmod_of_inRange (inRange_toInt _)]

theorem toInt_of_ofBool {p q : Prop} [Decidable p] [Decidable q] {v : Word} (hpq : p ↔ q)
    (h : some (ofBool p) = some v) : v.toInt = if q then 1 else 0 := by
  obtain rfl := Option.some.inj h
  by_cases hq : q
  · simp [ofBool, hpq.2 hq, hq]
  · simp [ofBool, mt hpq.1 hq, hq]

end Word

namespace Operator

def exact (op : Operator) (a b : Int) : Int :=
  match op with
  | add => a + b
  | mul => a * b
  | sub => a - b
  | div => ⌊(a : ℚ) / b⌋
  | mod => a - b * ⌊(a : ℚ) / b⌋
  | eq => if a = b then 1 else 0
  | ne => if a ≠ b then 1 else 0
  | lt => if a < b then 1 else 0
  | gt => if a > b then 1 else 0
  | le => if a ≤ b then 1 else 0
  | ge => if a ≥ b then 1 else 0

def mayWrap : Operator → Bool
  | add | mul | sub | div => true
  | _ => false

theorem eval?_eq_none_iff (op : Operator) (a b : Word) :
    op.eval? a b = none ↔ (op = div ∨ op = mod) ∧ b = 0 := by
  cases op with
  | div => simp [eval?, Word.floorDiv?_eq_none_iff]
  | mod => simp [eval?, Word.floorMod?_eq_none_iff]
  | _ => simp [eval?]

theorem toInt_eval?_of_not_mayWrap {op : Operator} {a b v : Word} (hop : op.mayWrap = false)
    (h : op.eval? a b = some v) : v.toInt = op.exact a.toInt b.toInt := by
  cases op with
  | mod => exact (Word.toInt_floorMod? h).1
  | eq => exact Word.toInt_of_ofBool Int64.toInt_inj.symm h
  | ne => exact Word.toInt_of_ofBool (not_congr Int64.toInt_inj.symm) h
  | lt => exact Word.toInt_of_ofBool Int64.lt_iff_toInt_lt h
  | gt => exact Word.toInt_of_ofBool Int64.lt_iff_toInt_lt h
  | le => exact Word.toInt_of_ofBool Int64.le_iff_toInt_le h
  | ge => exact Word.toInt_of_ofBool Int64.le_iff_toInt_le h
  | _ => simp [mayWrap] at hop

theorem toInt_eval? {op : Operator} {a b v : Word} (h : op.eval? a b = some v) :
    v.toInt = (op.exact a.toInt b.toInt).bmod (2 ^ 64) := by
  cases hop : op.mayWrap with
  | false =>
    rw [← toInt_eval?_of_not_mayWrap hop h, Word.bmod_of_inRange (Word.inRange_toInt v)]
  | true =>
    cases op with
    | add =>
      obtain rfl := Option.some.inj h
      exact Int64.toInt_add a b
    | mul =>
      obtain rfl := Option.some.inj h
      exact Int64.toInt_mul a b
    | sub =>
      obtain rfl := Option.some.inj h
      exact Int64.toInt_sub a b
    | div => exact Word.toInt_floorDiv? h
    | _ => simp [mayWrap] at hop

end Operator

open Word

/-- An operator has no value only if it divides by zero. Otherwise its word is its value over
the integers, reduced to the range of words; nothing is lost in a comparison or a remainder,
and in a quotient only for the least word and minus one. Quotient and remainder make up the
dividend, and the corrections that lead to them do not overflow. -/
theorem operators_are_exact (a b : Word) :
    (∀ op : Operator, op.eval? a b = none ↔ (op = .div ∨ op = .mod) ∧ b = 0) ∧
    (∀ (op : Operator) v, op.eval? a b = some v →
      v.toInt = (op.exact a.toInt b.toInt).bmod (2 ^ 64) ∧
      (op.mayWrap = false → v.toInt = op.exact a.toInt b.toInt)) ∧
    (∀ q, Operator.div.eval? a b = some q →
      (q.toInt ≠ ⌊(a.toInt : ℚ) / b.toInt⌋ ↔ a = Int64.minValue ∧ b = -1) ∧
      (a = Int64.minValue → b = -1 → q = Int64.minValue)) ∧
    (∀ r, Operator.mod.eval? a b = some r →
      (0 < b.toInt → 0 ≤ r.toInt ∧ r.toInt < b.toInt) ∧
      (b.toInt < 0 → b.toInt < r.toInt ∧ r.toInt ≤ 0)) ∧
    (∀ q r, Operator.div.eval? a b = some q → Operator.mod.eval? a b = some r →
      q.toInt * b.toInt + r.toInt ≡ a.toInt [ZMOD 2 ^ 64]) ∧
    (b ≠ 0 → Misplaced (a % b) b →
      InRange ((a / b).toInt - 1) ∧ InRange ((a % b).toInt + b.toInt)) := by
  refine ⟨fun op => op.eval?_eq_none_iff a b, fun op v h => ?_, fun q h => ⟨?_, ?_⟩,
    fun r h => (toInt_floorMod? h).2, fun q r hq hr => ?_, fun hb h => ?_⟩
  · exact ⟨Operator.toInt_eval? h, fun hop => Operator.toInt_eval?_of_not_mayWrap hop h⟩
  · rw [ne_eq, floorDiv?_exact_iff h, not_not]
  · rintro rfl rfl
    exact (Option.some.inj h).symm.trans (by decide)
  · have hmod := (toInt_floorMod? hr).1
    have hdiv : q.toInt ≡ ⌊(a.toInt : ℚ) / b.toInt⌋ [ZMOD 2 ^ 64] := by
      rw [toInt_floorDiv? hq]
      exact Int.bmod_emod
    calc q.toInt * b.toInt + r.toInt
        ≡ ⌊(a.toInt : ℚ) / b.toInt⌋ * b.toInt + r.toInt [ZMOD 2 ^ 64] :=
          (hdiv.mul_right _).add_right _
      _ = a.toInt := by rw [hmod]; ring
  · exact ⟨inRange_div_sub_one hb h, inRange_mod_add hb h⟩

example : Operator.div.eval? (-7) 2 = some (-4) ∧ Operator.mod.eval? (-7) 2 = some 1 := by decide

end AbstractMachines
