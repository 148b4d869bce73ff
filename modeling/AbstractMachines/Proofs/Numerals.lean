import AbstractMachines.Proofs.Texts
import Mathlib.Data.List.DropRight

/-!
# The numerals that are read

A numeral is a run of decimal digits with or without a sign. A payload is the
numeral of a word with blanks around it. Reading accepts these texts and no
others: trimming takes off exactly the blanks at the two ends, and a numeral whose
value is no word is refused.
-/

namespace AbstractMachines
namespace Text

def Blank (cs : List Char) : Prop := ∀ c ∈ cs, isBlank c = true

theorem blank_nil : Blank [] := List.forall_mem_nil _

inductive Padded (P : List Char → Prop) : List Char → Prop where
  | intro {before body after : List Char} (hb : Blank before) (h : P body) (ha : Blank after) :
      Padded P (before ++ body ++ after)

theorem exists_trimEnd (cs : List Char) : ∃ after, Blank after ∧ cs = trimEnd cs ++ after :=
  ⟨cs.rtakeWhile isBlank, fun _ hc => List.mem_rtakeWhile_imp hc,
    List.rdropWhile_append_rtakeWhile.symm⟩

theorem exists_trim (cs : List Char) :
    ∃ before after, Blank before ∧ Blank after ∧ cs = before ++ trim cs ++ after := by
  obtain ⟨after, hafter, hend⟩ := exists_trimEnd (cs.dropWhile isBlank)
  refine ⟨cs.takeWhile isBlank, after, fun _ hc => List.mem_takeWhile_imp hc, hafter, ?_⟩
  rw [List.append_assoc, trim, ← hend, List.takeWhile_append_dropWhile]

theorem trimEnd_append {after : List Char} (h : Blank after) (cs : List Char) :
    trimEnd (cs ++ after) = trimEnd cs := by
  have hreverse : ∀ c ∈ after.reverse, isBlank c = true := fun c hc => h c (List.mem_reverse.1 hc)
  rw [trimEnd, trimEnd, dropWhileEnd, dropWhileEnd, List.reverse_append,
    List.dropWhile_append_of_pos hreverse]

/-- The text is `core` with blanks around it, and `core` has none at its own ends. -/
structure Trims (cs core : List Char) : Prop where
  padded : Padded (· = core) cs
  head : ∀ c ∈ core.head?, isBlank c = false
  last : ∀ c ∈ core.getLast?, isBlank c = false

theorem Trims.trim_eq {cs core : List Char} (h : Trims cs core) : trim cs = core := by
  obtain ⟨hpadded, hhead, hlast⟩ := h
  cases hpadded with
  | @intro before body after hb h ha =>
    subst h
    rw [List.append_assoc, trim, List.dropWhile_append_of_pos hb]
    cases body with
    | nil =>
      rw [List.nil_append, List.dropWhile_eq_nil_iff.2 ha]
      rfl
    | cons c cs =>
      rw [dropWhile_of_head (by simpa using hhead), trimEnd_append ha, trimEnd_of_last hlast]

theorem head_dropWhile {p : Char → Bool} {cs : List Char} :
    ∀ c ∈ (cs.dropWhile p).head?, p c = false := by
  intro c hc
  have hhead := List.head?_dropWhile_not p cs
  rwa [Option.mem_def.1 hc] at hhead

theorem trims_trim (cs : List Char) : Trims cs (trim cs) where
  padded := by
    obtain ⟨before, after, hb, ha, hcs⟩ := exists_trim cs
    have hpadded : Padded (· = trim cs) (before ++ trim cs ++ after) := .intro hb rfl ha
    rwa [← hcs] at hpadded
  head c hc := by
    obtain ⟨after, -, hend⟩ := exists_trimEnd (cs.dropWhile isBlank)
    have hmem : c ∈ (cs.dropWhile isBlank).head? := by
      rw [hend]
      exact List.mem_head?_append_of_mem_head? hc
    exact head_dropWhile c hmem
  last c hc := by
    rw [trim, trimEnd, dropWhileEnd, List.getLast?_reverse] at hc
    exact head_dropWhile c hc

theorem trim_padded {before body after : List Char} (hb : Blank before) (ha : Blank after)
    (h : ∀ c ∈ body, isBlank c = false) : trim (before ++ body ++ after) = body :=
  Trims.trim_eq ⟨.intro hb rfl ha, fun c hc => h c (List.mem_of_mem_head? hc),
    fun c hc => h c (List.mem_of_mem_getLast? hc)⟩

theorem padded_iff {P : List Char → Prop} (hP : ∀ cs, P cs → ∀ c ∈ cs, isBlank c = false)
    {cs : List Char} : Padded P cs ↔ P (trim cs) := by
  constructor
  · intro h
    obtain ⟨hb, h, ha⟩ := h
    rwa [trim_padded hb ha (hP _ h)]
  · intro h
    obtain ⟨before, after, hb, ha, hcs⟩ := exists_trim cs
    rw [hcs]
    exact .intro hb h ha

theorem trim_eq_nil_iff {cs : List Char} : trim cs = [] ↔ Blank cs := by
  constructor
  · intro h
    obtain ⟨before, after, hb, ha, hcs⟩ := exists_trim cs
    rw [h, List.append_nil] at hcs
    rw [hcs]
    exact List.forall_mem_append.2 ⟨hb, ha⟩
  · intro h
    have hpadded : cs = cs ++ [] ++ [] := by simp
    rw [hpadded]
    exact trim_padded h blank_nil (by simp)

theorem Vocabulary.find_eq_some_iff {α : Type} {name : α → String} {find : List Char → Option α}
    (h : Vocabulary name find) {all : List α}
    (hfind : ∀ cs, find cs = all.find? fun a => (name a).toList == cs) {cs : List Char} {a : α} :
    find cs = some a ↔ (name a).toList = cs := by
  constructor
  · intro hcs
    rw [hfind] at hcs
    exact eq_of_beq (List.find?_some (p := fun a => (name a).toList == cs) hcs)
  · intro hcs
    exact hcs ▸ h.find_name a

end Text

namespace Word

inductive Digits : List Char → Nat → Prop where
  | single {d : Nat} (h : d < 10) : Digits [d.digitChar] d
  | snoc {ds : List Char} {n d : Nat} (hds : Digits ds n) (h : d < 10) :
      Digits (ds ++ [d.digitChar]) (10 * n + d)

inductive Numeral : List Char → Int → Prop where
  | unsigned {ds : List Char} {n : Nat} (h : Digits ds n) : Numeral ds n
  | plus {ds : List Char} {n : Nat} (h : Digits ds n) : Numeral ('+' :: ds) n
  | minus {ds : List Char} {n : Nat} (h : Digits ds n) : Numeral ('-' :: ds) (-n)

def Payload (text : List Char) (w : Word) : Prop := Text.Padded (Numeral · w.toInt) text

theorem exists_digit {c : Char} (h : c.isDigit = true) : ∃ d < 10, c = Nat.digitChar d := by
  have hrange : 48 ≤ c.toNat ∧ c.toNat ≤ 57 := Char.isDigit_iff_toNat.1 h
  have hd : c.toNat - 48 < 10 := by omega
  refine ⟨c.toNat - 48, hd, Char.toNat_inj.1 ?_⟩
  rw [Nat.toNat_digitChar_of_lt_ten hd]
  omega

theorem ofDigitChars_snoc (ds : List Char) {d : Nat} (h : d < 10) :
    Nat.ofDigitChars 10 (ds ++ [d.digitChar]) 0 = 10 * Nat.ofDigitChars 10 ds 0 + d := by
  rw [Nat.ofDigitChars_append, Nat.ofDigitChars_cons_digitChar_of_lt_ten h, Nat.ofDigitChars_nil]

theorem digits_of_isDigit {ds : List Char} (hne : ds ≠ []) (h : ∀ c ∈ ds, c.isDigit = true) :
    Digits ds (Nat.ofDigitChars 10 ds 0) := by
  induction ds using List.reverseRecOn with
  | nil => exact absurd rfl hne
  | append_singleton ds c ih =>
    obtain ⟨hds, hc⟩ := List.forall_mem_append.1 h
    obtain ⟨d, hd, rfl⟩ := exists_digit (hc c List.mem_cons_self)
    rw [ofDigitChars_snoc ds hd]
    by_cases hnil : ds = []
    · subst hnil
      simpa using Digits.single hd
    · exact .snoc (ih hnil hds) hd

theorem Digits.spec {ds : List Char} {n : Nat} (h : Digits ds n) :
    ds ≠ [] ∧ (∀ c ∈ ds, c.isDigit = true) ∧ Nat.ofDigitChars 10 ds 0 = n := by
  induction h with
  | @single d hd =>
    refine ⟨List.cons_ne_nil _ _, ?_, ?_⟩
    · simpa using Nat.isDigit_digitChar.trans (decide_eq_true hd)
    · simpa using ofDigitChars_snoc [] hd
  | @snoc ds n d _ hd ih =>
    obtain ⟨-, hdigits, hvalue⟩ := ih
    refine ⟨by simp, ?_, ?_⟩
    · exact List.forall_mem_append.2 ⟨hdigits, by simp [hd]⟩
    · rw [ofDigitChars_snoc ds hd, hvalue]

theorem digits?_eq_some_iff {ds : List Char} {n : Nat} : digits? ds = some n ↔ Digits ds n := by
  constructor
  · intro h
    rw [digits?, Option.ite_none_right_eq_some, Option.some.injEq] at h
    obtain ⟨⟨hne, hall⟩, rfl⟩ := h
    exact digits_of_isDigit hne (List.all_eq_true.1 hall)
  · intro h
    obtain ⟨hne, hdigits, rfl⟩ := h.spec
    rw [digits?, if_pos ⟨hne, List.all_eq_true.2 hdigits⟩]

theorem ofInt?_eq_some_iff {i : Int} {w : Word} : ofInt? i = some w ↔ i = w.toInt := by
  constructor
  · intro h
    rw [ofInt?, Option.ite_none_right_eq_some, Option.some.injEq] at h
    obtain ⟨⟨hmin, hmax⟩, rfl⟩ := h
    rw [Int64.toInt_ofInt_of_le hmin (Int.lt_add_one_of_le hmax)]
  · intro h
    exact h ▸ ofInt?_toInt w

theorem bind_digits?_eq_some_iff {ds : List Char} {value : Nat → Int} {w : Word} :
    ((digits? ds).bind fun n => ofInt? (value n)) = some w ↔
      ∃ n, Digits ds n ∧ value n = w.toInt := by
  simp only [Option.bind_eq_some_iff, digits?_eq_some_iff, ofInt?_eq_some_iff]

theorem ofText?_eq_some_iff {cs : List Char} {w : Word} :
    ofText? cs = some w ↔ Numeral cs w.toInt := by
  constructor
  · intro h
    unfold ofText? at h
    split at h
    · obtain ⟨n, hn, hw⟩ := bind_digits?_eq_some_iff.1 h
      exact hw ▸ .plus hn
    · obtain ⟨n, hn, hw⟩ := bind_digits?_eq_some_iff.1 h
      exact hw ▸ .minus hn
    · obtain ⟨n, hn, hw⟩ := bind_digits?_eq_some_iff.1 h
      exact hw ▸ .unsigned hn
  · generalize hw : w.toInt = i
    intro h
    cases h with
    | @unsigned ds n h =>
      rw [ofText?_of_isDigit h.spec.2.1]
      exact bind_digits?_eq_some_iff.2 ⟨n, h, hw.symm⟩
    | @plus ds n h => exact bind_digits?_eq_some_iff.2 ⟨n, h, hw.symm⟩
    | @minus ds n h => exact bind_digits?_eq_some_iff.2 ⟨n, h, hw.symm⟩

theorem Numeral.not_blank {cs : List Char} {i : Int} (h : Numeral cs i) :
    ∀ c ∈ cs, Text.isBlank c = false := by
  have hdigits {ds : List Char} {n : Nat} (h : Digits ds n) : ∀ c ∈ ds, Text.isBlank c = false :=
    fun c hc => Text.isBlank_of_isDigit (h.spec.2.1 c hc)
  cases h with
  | unsigned h => exact hdigits h
  | plus h => exact List.forall_mem_cons.2 ⟨rfl, hdigits h⟩
  | minus h => exact List.forall_mem_cons.2 ⟨rfl, hdigits h⟩

theorem payload_iff {text : List Char} {w : Word} :
    Payload text w ↔ ofText? (Text.trim text) = some w :=
  (Text.padded_iff fun _ h => h.not_blank).trans ofText?_eq_some_iff.symm

theorem parse_eq_ok_iff {text : List Char} {w : Word} : Word.parse text = .ok w ↔ Payload text w := by
  rw [payload_iff, Word.parse]
  split <;> simp_all

theorem parse_eq_error {text : List Char} {e : ParseError} (h : Word.parse text = .error e) :
    e = .invalidPayload (String.ofList text) := by
  unfold Word.parse at h
  split at h
  · cases h
  · cases h
    rfl

end Word
end AbstractMachines
