import AbstractMachines.AM0.Machine
import AbstractMachines.AM1.Machine

/-!
# Words, cells and slots

Counters, addresses and lengths are compared as integers. Within the range of
a word the clamped operations are exact, and that is all that is needed of
them below. A cell of the sparse memory and a slot of the runtime stack both
give back the last word put there, and putting a word into one of them changes
no other.
-/

namespace AbstractMachines
namespace Word

theorem toInt_addClamp {a b : Word} (hlo : Int64.minValue.toInt ≤ a.toInt + b.toInt)
    (hhi : a.toInt + b.toInt ≤ Int64.maxValue.toInt) :
    (a.addClamp b).toInt = a.toInt + b.toInt :=
  Int64.toInt_ofIntClamp hlo hhi

theorem toInt_subClamp {a b : Word} (hlo : Int64.minValue.toInt ≤ a.toInt - b.toInt)
    (hhi : a.toInt - b.toInt ≤ Int64.maxValue.toInt) :
    (a.subClamp b).toInt = a.toInt - b.toInt :=
  Int64.toInt_ofIntClamp hlo hhi

theorem toInt_returned {c : Word} (h : c.toInt ≤ Int64.maxValue.toInt - 2) :
    (c.addClamp 2).jumpBias.advance.toInt = c.toInt + 1 := by
  have hlo := c.le_toInt
  have hmax : Int64.maxValue.toInt = 2 ^ 63 - 1 := by decide
  have hadd : (c.addClamp 2).toInt = c.toInt + 2 := toInt_addClamp (by simp; omega) (by simp; omega)
  have hsub : (c.addClamp 2).jumpBias.toInt = c.toInt := by
    rw [jumpBias, toInt_subClamp (by simp; omega) (by simp; omega), hadd]
    simp
  rw [advance, toInt_addClamp (by simp; omega) (by simp; omega), hsub]
  rfl

end Word

namespace AM0
namespace Memory

theorem lookup_place (a v b : Word) (cells : List (Word × Word)) :
    (place a v cells).lookup b = if b = a then some v else cells.lookup b := by
  by_cases h : b = a
  · subst h
    induction cells with
    | nil => simp [place]
    | cons p rest ih =>
      obtain ⟨c, w⟩ := p
      simp only [place, if_true] at ih ⊢
      split
      · simp
      · split
        · simp
        · next hbc =>
          have hc : (b == c) = false := beq_eq_false_iff_ne.2 hbc
          simp [List.lookup_cons, hc, ih]
  · have hb : (b == a) = false := beq_eq_false_iff_ne.2 h
    induction cells with
    | nil => simp [place, List.lookup_cons, hb, h]
    | cons p rest ih =>
      obtain ⟨c, w⟩ := p
      simp only [place, h, if_false] at ih ⊢
      split
      · simp [List.lookup_cons, hb]
      · split
        · next hac =>
          subst hac
          simp [List.lookup_cons, hb]
        · simp [List.lookup_cons, ih]

theorem get?_insert (m : Memory) (a v b : Word) :
    (m.insert a v).get? b = if b = a then some v else m.get? b :=
  lookup_place a v b m.cells

theorem lookup_of_below {a : Word} {cells : List (Word × Word)} (h : ∀ p ∈ cells, a < p.1) :
    cells.lookup a = none := by
  rw [List.lookup_eq_none_iff]
  intro p hp
  have hne : a ≠ p.1 := Int64.ne_of_lt (h p hp)
  simpa using hne

theorem head_le_of_lookup {a v b w : Word} {rest : List (Word × Word)}
    (hc : Ascending ((b, w) :: rest)) (h : ((b, w) :: rest).lookup a = some v) : b ≤ a := by
  apply Int64.not_lt.1
  intro hlt
  have hnone : ((b, w) :: rest).lookup a = none := by
    refine lookup_of_below fun p hp => ?_
    rcases List.mem_cons.1 hp with rfl | hp
    · exact hlt
    · exact Int64.lt_trans hlt ((List.pairwise_cons.1 hc).1 p hp)
  simp [hnone] at h

theorem eq_of_lookup {cells cells' : List (Word × Word)} (hc : Ascending cells)
    (hc' : Ascending cells') (h : ∀ a, cells.lookup a = cells'.lookup a) : cells = cells' := by
  induction cells generalizing cells' with
  | nil =>
    cases cells' with
    | nil => rfl
    | cons q rest' =>
      obtain ⟨b, w⟩ := q
      simpa using h b
  | cons p rest ih =>
    obtain ⟨a, v⟩ := p
    cases cells' with
    | nil => simpa using h a
    | cons q rest' =>
      obtain ⟨b, w⟩ := q
      obtain ⟨hp, hr⟩ := List.pairwise_cons.1 hc
      obtain ⟨hq, hr'⟩ := List.pairwise_cons.1 hc'
      obtain rfl : a = b := Int64.le_antisymm
        (head_le_of_lookup hc (by rw [h b, List.lookup_cons_self]))
        (head_le_of_lookup hc' (by rw [← h a, List.lookup_cons_self]))
      obtain rfl : v = w := by simpa using h a
      rw [ih hr hr' fun c => ?_]
      by_cases hca : c = a
      · subst hca
        rw [lookup_of_below hp, lookup_of_below hq]
      · have hbeq : (c == a) = false := beq_eq_false_iff_ne.2 hca
        simpa [List.lookup_cons, hbeq] using h c

theorem ext_get? {m n : Memory} (h : ∀ a, m.get? a = n.get? a) : m = n := by
  obtain ⟨cells, hc⟩ := m
  obtain ⟨cells', hc'⟩ := n
  obtain rfl : cells = cells' := eq_of_lookup hc hc' h
  rfl

end Memory
end AM0

namespace AM1
namespace Machine

theorem slot?_of_pos {m : Machine} {a : Word} (h : 1 ≤ a.toInt) :
    m.slot? a = m.runtime[a.toInt.toNat - 1]? := by
  have ha : (1 : Word) ≤ a := Int64.le_iff_toInt_le.2 h
  simp [slot?, ha]

theorem slot?_of_nonpos {m : Machine} {a : Word} (h : a.toInt < 1) : m.slot? a = none := by
  have ha : ¬ (1 : Word) ≤ a := fun hle => absurd (Int64.le_iff_toInt_le.1 hle) (by simpa using h)
  simp [slot?, ha]

theorem slot?_isSome {m : Machine} {a : Word} :
    (m.slot? a).isSome ↔ 1 ≤ a.toInt ∧ a.toInt ≤ m.runtime.size := by
  by_cases h : 1 ≤ a.toInt
  · simp only [slot?_of_pos h, isSome_getElem?]
    omega
  · simp [slot?_of_nonpos (Int.not_le.1 h), h]

theorem slot?_congr {m n : Machine} {a : Word}
    (h : 1 ≤ a.toInt → n.runtime[a.toInt.toNat - 1]? = m.runtime[a.toInt.toNat - 1]?) :
    n.slot? a = m.slot? a := by
  by_cases ha : 1 ≤ a.toInt
  · rw [slot?_of_pos ha, slot?_of_pos ha, h ha]
  · rw [slot?_of_nonpos (Int.not_le.1 ha), slot?_of_nonpos (Int.not_le.1 ha)]

theorem slot?_shrink {m n : Machine} {size : Nat} {a : Word}
    (hrun : n.runtime = m.runtime.shrink size) (ha : a.toInt ≤ size) : n.slot? a = m.slot? a := by
  refine slot?_congr fun hpos => ?_
  simp only [hrun, Array.shrink_eq_take, Array.take_eq_extract, Array.getElem?_extract,
    Nat.zero_add]
  split
  · rfl
  · rw [Array.getElem?_eq_none (by omega)]

theorem slot?_assign_self {m : Machine} {a v : Word} (h : (m.slot? a).isSome) :
    (m.assign a v).slot? a = some v := by
  obtain ⟨hpos, hle⟩ := slot?_isSome.1 h
  rw [slot?_of_pos hpos, assign, ← Int64.toNat_toInt]
  exact Array.getElem?_setIfInBounds_self_of_lt (by omega)

theorem slot?_assign_of_ne {m : Machine} {a b v : Word} (h : 1 ≤ a.toInt) (hne : b ≠ a) :
    (m.assign a v).slot? b = m.slot? b := by
  refine slot?_congr fun hb => ?_
  have hint : b.toInt ≠ a.toInt := fun hab => hne (Int64.toInt_inj.1 hab)
  rw [assign, ← Int64.toNat_toInt]
  exact Array.getElem?_setIfInBounds_ne (by omega)

@[simp] theorem size_assign (m : Machine) (a v : Word) :
    (m.assign a v).runtime.size = m.runtime.size := by
  simp [assign]

end Machine
end AM1
end AbstractMachines
