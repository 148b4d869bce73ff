import AbstractMachines.Word

/-!
# Sparse memory

A finite map from addresses to words. The cells are kept in strictly ascending
order of address, so two memories are equal exactly when they hold the same
words at the same addresses.
-/

namespace AbstractMachines
namespace AM0

def Memory.Ascending (cells : List (Word × Word)) : Prop :=
  cells.Pairwise fun p q => p.1 < q.1

structure Memory where
  cells : List (Word × Word)
  ascending : Memory.Ascending cells
  deriving DecidableEq

namespace Memory

def empty : Memory := ⟨[], .nil⟩

def get? (m : Memory) (a : Word) : Option Word := m.cells.lookup a

def place (a v : Word) : List (Word × Word) → List (Word × Word)
  | [] => [(a, v)]
  | (b, w) :: rest =>
    if a < b then (a, v) :: (b, w) :: rest
    else if a = b then (a, v) :: rest
    else (b, w) :: place a v rest

theorem mem_place {a v : Word} {p : Word × Word} {cells : List (Word × Word)}
    (h : p ∈ place a v cells) : p = (a, v) ∨ p ∈ cells := by
  induction cells with
  | nil => simpa [place] using h
  | cons q rest ih =>
    obtain ⟨b, w⟩ := q
    simp only [place] at h
    split at h
    · simpa using h
    · split at h
      · rcases List.mem_cons.1 h with h | h
        · exact .inl h
        · exact .inr (List.mem_cons_of_mem _ h)
      · rcases List.mem_cons.1 h with h | h
        · exact .inr (h ▸ List.mem_cons_self)
        · exact (ih h).imp id (List.mem_cons_of_mem _)

theorem ascending_place (a v : Word) {cells : List (Word × Word)} (h : Ascending cells) :
    Ascending (place a v cells) := by
  induction cells with
  | nil => simp [place, Ascending]
  | cons q rest ih =>
    obtain ⟨b, w⟩ := q
    obtain ⟨hb, hr⟩ := List.pairwise_cons.1 h
    simp only [place]
    split
    · next hab =>
      refine List.pairwise_cons.2 ⟨fun p hp => ?_, h⟩
      rcases List.mem_cons.1 hp with rfl | hp
      · exact hab
      · exact Int64.lt_trans hab (hb p hp)
    · next hab =>
      split
      · next heq => exact List.pairwise_cons.2 ⟨fun p hp => heq ▸ hb p hp, hr⟩
      · next hne =>
        have hba : b < a := Int64.lt_of_le_of_ne (Int64.not_lt.1 hab) (Ne.symm hne)
        refine List.pairwise_cons.2 ⟨fun p hp => ?_, ih hr⟩
        rcases mem_place hp with rfl | hp
        · exact hba
        · exact hb p hp

def insert (a v : Word) (m : Memory) : Memory :=
  ⟨place a v m.cells, ascending_place a v m.ascending⟩

def ofList (cells : List (Word × Word)) : Memory :=
  cells.foldl (fun m p => m.insert p.1 p.2) empty

end Memory
end AM0
end AbstractMachines
