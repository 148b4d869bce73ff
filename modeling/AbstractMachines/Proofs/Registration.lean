import AbstractMachines.Registry
import Mathlib.Data.List.Forall2
import Mathlib.Data.List.Induction
import Mathlib.Data.List.Pairwise

/-!
# Registries as maps

Names that differ only in the case of ASCII letters form a class. A registry that came
about by registrations has one entry for each class that was registered, in the order
in which the classes first came up. The entry has the name and the value of the last
registration in its class, and looking up a name finds the entry of its class.
-/

namespace AbstractMachines

namespace Text

def Capital (c d : Char) : Prop := 'A' ≤ c ∧ c ≤ 'Z' ∧ d.toNat = c.toNat + 32

def SameLetter (c d : Char) : Prop := c = d ∨ Capital c d ∨ Capital d c

def SameName (s t : String) : Prop := List.Forall₂ SameLetter s.toList t.toList

theorem toNat_toLower (c : Char) :
    c.toLower.toNat = if 'A' ≤ c ∧ c ≤ 'Z' then c.toNat + 32 else c.toNat := by
  unfold Char.toLower
  split
  · next h =>
    have hrange : 'A' ≤ c ∧ c ≤ 'Z' := h
    have hlast : c.toNat ≤ 90 := h.2
    have hshift : ('a'.val - 'A'.val).toNat = 32 := rfl
    have hsum : (c.val + ('a'.val - 'A'.val)).toNat = c.toNat + 32 := by
      rw [UInt32.toNat_add, hshift]
      exact Nat.mod_eq_of_lt (Nat.lt_of_le_of_lt (Nat.add_le_add_right hlast 32) (by decide))
    rw [if_pos hrange]
    exact hsum
  · next h =>
    have hrange : ¬('A' ≤ c ∧ c ≤ 'Z') := h
    rw [if_neg hrange]

theorem toLower_eq_iff {c d : Char} : c.toLower = d.toLower ↔ SameLetter c d := by
  have hle (a b : Char) : a ≤ b ↔ a.toNat ≤ b.toNat := Iff.rfl
  have hA : 'A'.toNat = 65 := rfl
  have hZ : 'Z'.toNat = 90 := rfl
  rw [← Char.toNat_inj, toNat_toLower, toNat_toLower, SameLetter, Capital, Capital, ← Char.toNat_inj]
  simp only [hle, hA, hZ]
  split <;> split <;> omega

theorem sameName_iff {s t : String} : sameName s t = true ↔ SameName s t := by
  rw [sameName, beq_iff_eq, ← List.forall₂_eq_eq_eq, List.forall₂_map_left_iff,
    List.forall₂_map_right_iff]
  simp only [toLower_eq_iff]
  rfl

-- The Kelvin sign is a capital K to some, and not to a registry.
example : sameName "\u212A1" "k1" = false ∧ sameName "K1" "k1" = true := by decide +kernel

theorem sameName_iff_folded {s t : String} :
    SameName s t ↔ s.toList.map Char.toLower = t.toList.map Char.toLower := by
  rw [← sameName_iff, sameName, beq_iff_eq]

theorem SameName.refl (s : String) : SameName s s := sameName_iff_folded.2 rfl

theorem SameName.symm {s t : String} (h : SameName s t) : SameName t s :=
  sameName_iff_folded.2 (sameName_iff_folded.1 h).symm

theorem SameName.trans {s t u : String} (h : SameName s t) (h' : SameName t u) : SameName s u :=
  sameName_iff_folded.2 ((sameName_iff_folded.1 h).trans (sameName_iff_folded.1 h'))

end Text

namespace Registry

variable {α β : Type}

def map (f : α → β) (r : Registry α) : Registry β := ⟨r.entries.map fun e => (e.1, f e.2)⟩

def registerAll (r : Registry α) (history : List (String × α)) : Registry α :=
  history.foldl (fun r e => r.register e.1 e.2) r

theorem registerAll_append (r : Registry α) (front back : List (String × α)) :
    r.registerAll (front ++ back) = (r.registerAll front).registerAll back := by
  rw [registerAll, List.foldl_append]
  rfl

section History

variable {history : List (String × α)} {n m q : String} {a b : α}

def Registered (history : List (String × α)) (q : String) : Prop :=
  ∃ e ∈ history, Text.SameName e.1 q

def Latest (history : List (String × α)) (name : String) (a : α) : Prop :=
  ∃ earlier later, history = earlier ++ (name, a) :: later ∧ ¬Registered later name

/-- At some time the class of `n` had been registered and that of `m` had not. -/
def Precedes (history : List (String × α)) (n m : String) : Prop :=
  ∃ front back, history = front ++ back ∧ Registered front n ∧ ¬Registered front m

theorem Registered.congr (h : Text.SameName n m) (hn : Registered history n) : Registered history m := by
  obtain ⟨e, he, hsame⟩ := hn
  exact ⟨e, he, hsame.trans h⟩

theorem registered_snoc_iff :
    Registered (history ++ [(n, a)]) q ↔ Registered history q ∨ Text.SameName n q := by
  simp [Registered, or_and_right, exists_or]

theorem Latest.registered (h : Latest history n a) : Registered history n := by
  obtain ⟨earlier, later, rfl, -⟩ := h
  exact ⟨(n, a), by simp, .refl n⟩

theorem latest_snoc_iff :
    Latest (history ++ [(n, a)]) m b ↔
      (m, b) = (n, a) ∨ Latest history m b ∧ ¬Text.SameName m n := by
  constructor
  · intro h
    obtain ⟨earlier, later, heq, hlater⟩ := h
    rcases List.eq_nil_or_concat' later with rfl | ⟨later, last, rfl⟩
    · have hlast := (List.append_inj' heq rfl).2
      exact .inl (List.cons.inj hlast).1.symm
    · rw [← List.cons_append, ← List.append_assoc] at heq
      obtain ⟨hfront, hlast⟩ := List.append_inj' heq rfl
      obtain rfl : (n, a) = last := (List.cons.inj hlast).1
      rw [registered_snoc_iff, not_or] at hlater
      exact .inr ⟨⟨earlier, later, hfront, hlater.1⟩, fun h => hlater.2 h.symm⟩
  · intro h
    rcases h with h | ⟨h, hne⟩
    · cases h
      exact ⟨history, [], rfl, by simp [Registered]⟩
    · obtain ⟨earlier, later, rfl, hlater⟩ := h
      refine ⟨earlier, later ++ [(n, a)], by simp, ?_⟩
      rw [registered_snoc_iff, not_or]
      exact ⟨hlater, fun h => hne h.symm⟩

theorem Registered.exists_latest (h : Registered history q) :
    ∃ name a, Text.SameName name q ∧ Latest history name a := by
  induction history using List.reverseRecOn with
  | nil => simp [Registered] at h
  | append_singleton history e ih =>
    obtain ⟨n, a⟩ := e
    by_cases hsame : Text.SameName n q
    · exact ⟨n, a, hsame, latest_snoc_iff.2 (.inl rfl)⟩
    · obtain ⟨name, b, hname, hlatest⟩ := ih ((registered_snoc_iff.1 h).resolve_right hsame)
      refine ⟨name, b, hname, latest_snoc_iff.2 (.inr ⟨hlatest, ?_⟩)⟩
      intro hn
      exact hsame (hn.symm.trans hname)

theorem Precedes.not_sameName (h : Precedes history n m) : ¬Text.SameName n m := by
  obtain ⟨front, back, -, hn, hm⟩ := h
  intro hsame
  exact hm (hn.congr hsame)

theorem Precedes.snoc (h : Precedes history n m) (e : String × α) : Precedes (history ++ [e]) n m := by
  obtain ⟨front, back, rfl, hn, hm⟩ := h
  exact ⟨front, back ++ [e], List.append_assoc .., hn, hm⟩

theorem Precedes.congr_left {n' : String} (hsame : Text.SameName n n') (h : Precedes history n m) :
    Precedes history n' m := by
  obtain ⟨front, back, heq, hn, hm⟩ := h
  exact ⟨front, back, heq, hn.congr hsame, hm⟩

theorem Precedes.congr_right {m' : String} (hsame : Text.SameName m m') (h : Precedes history n m) :
    Precedes history n m' := by
  obtain ⟨front, back, heq, hn, hm⟩ := h
  exact ⟨front, back, heq, hn, fun h => hm (h.congr hsame.symm)⟩

theorem precedes_new (hn : Registered history n) (hm : ¬Registered history m) (e : String × α) :
    Precedes (history ++ [e]) n m :=
  ⟨history, [e], rfl, hn, hm⟩

end History

section Put

variable {name : String} {a : α} {es : List (String × α)}

theorem put_cases (name : String) (a : α) (es : List (String × α)) :
    (∃ front old back, es = front ++ old :: back ∧ Text.SameName old.1 name ∧
      put name a es = front ++ (name, a) :: back) ∨
    (∀ e ∈ es, ¬Text.SameName e.1 name) ∧ put name a es = es ++ [(name, a)] := by
  induction es with
  | nil => exact .inr ⟨by simp, rfl⟩
  | cons e rest ih =>
    by_cases hsame : Text.SameName e.1 name
    · refine .inl ⟨[], e, rest, rfl, hsame, ?_⟩
      rw [put, if_pos (Text.sameName_iff.2 hsame), List.nil_append]
    rw [put, if_neg (mt Text.sameName_iff.1 hsame)]
    rcases ih with ⟨front, old, back, rfl, hold, hput⟩ | ⟨hnew, hput⟩
    · exact .inl ⟨e :: front, old, back, rfl, hold, by rw [hput, List.cons_append]⟩
    · exact .inr ⟨List.forall_mem_cons.2 ⟨hsame, hnew⟩, by rw [hput, List.cons_append]⟩

theorem mem_put_iff (h : es.Pairwise fun e f => ¬Text.SameName e.1 f.1) {e : String × α} :
    e ∈ put name a es ↔ e = (name, a) ∨ e ∈ es ∧ ¬Text.SameName e.1 name := by
  rcases put_cases name a es with ⟨front, old, back, rfl, hold, hput⟩ | ⟨hnew, hput⟩
  · rw [List.pairwise_append, List.pairwise_cons] at h
    obtain ⟨-, ⟨hback, -⟩, hfront⟩ := h
    have hfront : ∀ e ∈ front, ¬Text.SameName e.1 name :=
      fun e he hsame => hfront e he old List.mem_cons_self (hsame.trans hold.symm)
    have hback : ∀ e ∈ back, ¬Text.SameName e.1 name :=
      fun e he hsame => hback e he (hold.trans hsame.symm)
    rw [hput, List.mem_append, List.mem_cons, List.mem_append, List.mem_cons]
    grind
  · rw [hput, List.mem_append, List.mem_singleton, or_comm]
    grind

end Put

theorem find_cases (r : Registry α) (q : String) :
    (∃ e ∈ r.entries, Text.SameName e.1 q ∧ r.find q = .ok e.2) ∨
    (∀ e ∈ r.entries, ¬Text.SameName e.1 q) ∧ r.find q = .error ⟨q, r.names⟩ := by
  unfold find
  split
  · next e he =>
    have hsame := List.find?_some he
    exact .inl ⟨e, List.mem_of_find?_eq_some he, Text.sameName_iff.1 hsame, rfl⟩
  · next hnone =>
    refine .inr ⟨fun e he hsame => ?_, rfl⟩
    exact List.find?_eq_none.1 hnone e he (Text.sameName_iff.2 hsame)

/-- The entries are the last registrations, ordered by the first ones. -/
structure Records (history : List (String × α)) (r : Registry α) : Prop where
  mem_iff (name : String) (a : α) : (name, a) ∈ r.entries ↔ Latest history name a
  ordered : r.entries.Pairwise fun e f => Precedes history e.1 f.1

namespace Records

variable {history : List (String × α)} {r : Registry α}

theorem empty : Records [] ({} : Registry α) where
  mem_iff name a := by simp [Latest]
  ordered := .nil

theorem distinct (h : Records history r) : r.entries.Pairwise fun e f => ¬Text.SameName e.1 f.1 :=
  h.ordered.imp Precedes.not_sameName

theorem registered_iff (h : Records history r) {q : String} :
    Registered history q ↔ ∃ e ∈ r.entries, Text.SameName e.1 q := by
  constructor
  · intro hq
    obtain ⟨name, a, hname, hlatest⟩ := hq.exists_latest
    exact ⟨(name, a), (h.mem_iff name a).2 hlatest, hname⟩
  · intro hq
    obtain ⟨⟨name, a⟩, he, hname⟩ := hq
    exact ((h.mem_iff name a).1 he).registered.congr hname

theorem register (h : Records history r) (name : String) (a : α) :
    Records (history ++ [(name, a)]) (r.register name a) where
  mem_iff n b := by rw [Registry.register, mem_put_iff h.distinct, latest_snoc_iff, h.mem_iff]
  ordered := by
    have hbefore := h.ordered.imp (·.snoc (name, a))
    rcases put_cases name a r.entries with ⟨front, old, back, hsplit, hold, hput⟩ | ⟨hnew, hput⟩
    · -- The new entry stands where the old one of its class stood.
      rw [hsplit, List.pairwise_append, List.pairwise_cons] at hbefore
      obtain ⟨hfront, ⟨hrest, hback⟩, hacross⟩ := hbefore
      rw [Registry.register, hput, List.pairwise_append, List.pairwise_cons]
      refine ⟨hfront, ⟨fun e he => (hrest e he).congr_left hold, hback⟩, ?_⟩
      intro e he f hf
      rcases List.mem_cons.1 hf with rfl | hf
      · exact (hacross e he old List.mem_cons_self).congr_right hold
      · exact hacross e he f (List.mem_cons_of_mem old hf)
    · have hfirst : ¬Registered history name := by
        intro hname
        obtain ⟨e, he, hsame⟩ := h.registered_iff.1 hname
        exact hnew e he hsame
      rw [Registry.register, hput, List.pairwise_append]
      refine ⟨hbefore, List.pairwise_singleton _ _, ?_⟩
      intro e he f hf
      obtain rfl := List.mem_singleton.1 hf
      exact precedes_new (h.registered_iff.2 ⟨e, he, .refl e.1⟩) hfirst _

theorem registerAll (h : Records history r) (more : List (String × α)) :
    Records (history ++ more) (r.registerAll more) := by
  induction more generalizing history r with
  | nil =>
    rw [List.append_nil]
    exact h
  | cons e rest ih =>
    rw [List.append_cons]
    exact ih (h.register e.1 e.2)

theorem eq_of_sameName (h : Records history r) {e f : String × α} (he : e ∈ r.entries)
    (hf : f ∈ r.entries) (hsame : Text.SameName e.1 f.1) : e = f := by
  by_contra hne
  have hsymm : Std.Symm fun e f : String × α => ¬Text.SameName e.1 f.1 :=
    ⟨fun _ _ hne hsame => hne hsame.symm⟩
  exact h.distinct.forall he hf hne hsame

theorem find_eq_ok_iff (h : Records history r) {q : String} {a : α} :
    r.find q = .ok a ↔ ∃ name, Text.SameName name q ∧ Latest history name a := by
  constructor
  · intro hfind
    rcases r.find_cases q with ⟨e, he, hsame, hok⟩ | ⟨-, herror⟩
    · rw [hok] at hfind
      cases hfind
      exact ⟨e.1, hsame, (h.mem_iff e.1 e.2).1 he⟩
    · rw [herror] at hfind
      cases hfind
  · intro hq
    obtain ⟨name, hname, hlatest⟩ := hq
    have hmem := (h.mem_iff name a).2 hlatest
    rcases r.find_cases q with ⟨e, he, hsame, hok⟩ | ⟨hnone, -⟩
    · rw [hok, h.eq_of_sameName he hmem (hsame.trans hname.symm)]
    · exact absurd hname (hnone _ hmem)

theorem find_eq_error_iff (h : Records history r) {q : String} {e : UnknownName} :
    r.find q = .error e ↔ ¬Registered history q ∧ e = ⟨q, r.names⟩ := by
  rcases r.find_cases q with ⟨f, hf, hsame, hok⟩ | ⟨hnone, herror⟩
  · have hq : Registered history q := h.registered_iff.2 ⟨f, hf, hsame⟩
    simp [hok, hq]
  · have hq : ¬Registered history q := by
      intro hq
      obtain ⟨f, hf, hsame⟩ := h.registered_iff.1 hq
      exact hnone f hf hsame
    simp [herror, hq, eq_comm]

theorem find_succeeds_iff (h : Records history r) {q : String} :
    (∃ a, r.find q = .ok a) ↔ Registered history q := by
  constructor
  · intro hfind
    obtain ⟨a, ha⟩ := hfind
    obtain ⟨name, hname, hlatest⟩ := h.find_eq_ok_iff.1 ha
    exact hlatest.registered.congr hname
  · intro hq
    obtain ⟨name, a, hname, hlatest⟩ := hq.exists_latest
    exact ⟨a, h.find_eq_ok_iff.2 ⟨name, hname, hlatest⟩⟩

end Records

/-- The map that the registrations describe, where the case of ASCII letters does not matter
and the last registration of a class counts. A name is known if one of its class was
registered, and otherwise reported as it was given, together with all names there are. The
names are spelled as they were last and stand in the order in which their classes came up. -/
structure LastWriteWins (history : List (String × α)) (r : Registry α) : Prop where
  distinct : r.names.Pairwise fun n m => ¬Text.SameName n m
  known (q : String) : (∃ a, r.find q = .ok a) ↔ Registered history q
  latest (q : String) (a : α) :
    r.find q = .ok a ↔ ∃ name, Text.SameName name q ∧ Latest history name a
  unknown (q : String) (e : UnknownName) :
    r.find q = .error e ↔ ¬Registered history q ∧ e = ⟨q, r.names⟩
  spelled (name : String) : name ∈ r.names ↔ ∃ a, Latest history name a
  ordered : r.names.Pairwise (Precedes history)

theorem Records.lastWriteWins {history : List (String × α)} {r : Registry α}
    (h : Records history r) : LastWriteWins history r where
  distinct := List.pairwise_map.2 h.distinct
  known _ := h.find_succeeds_iff
  latest _ _ := h.find_eq_ok_iff
  unknown _ _ := h.find_eq_error_iff
  spelled name := by simp [names, h.mem_iff]
  ordered := List.pairwise_map.2 h.ordered

theorem builtin_map (make : Kind → α) :
    builtin.map make = registerAll {} [("AM0", make .am0), ("AM1", make .am1)] := by
  have hne : Text.sameName "AM0" "AM1" = false := by decide +kernel
  simp [builtin, map, registerAll, register, put, hne]

end Registry

/-- After any registrations, from the empty registry or on top of the sets that come with the
library, a registry is the map that its registrations describe. The values can be anything
that sessions are made with: a registry hands them out and looks into none. -/
theorem registry_is_a_last_write_wins_map {α : Type} (history : List (String × α)) :
    Registry.LastWriteWins history (Registry.registerAll {} history) ∧
    ∀ make : Kind → α,
      Registry.LastWriteWins ([("AM0", make .am0), ("AM1", make .am1)] ++ history)
        ((Registry.builtin.map make).registerAll history) := by
  have hempty : Registry.Records ([] : List (String × α)) {} := .empty
  constructor
  · exact (hempty.registerAll history).lastWriteWins
  · intro make
    rw [Registry.builtin_map, ← Registry.registerAll_append]
    exact (hempty.registerAll _).lastWriteWins

example : (Registry.builtin.register "am0" .am1).names = ["am0", "AM1"] := by decide +kernel

end AbstractMachines
