import AbstractMachines.Payload

/-!
# Trimming, splitting and decimal text

What the text functions do to text that was put together from parts: a line that
neither begins nor ends with a blank is not trimmed, a text splits at the first
separator that its front does not contain, and a terminated line is the first of
the lines. The decimal text of a word is read back as that word.
-/

namespace AbstractMachines

theorem map_eq_ok_iff {ε α β : Type} {f : α → β} {x : Except ε α} {b : β} :
    x.map f = .ok b ↔ ∃ a, x = .ok a ∧ f a = b := by
  cases x <;> simp [Except.map]

theorem map_eq_error_iff {ε α β : Type} {f : α → β} {x : Except ε α} {e : ε} :
    x.map f = .error e ↔ x = .error e := by
  cases x <;> simp [Except.map]

namespace Text

theorem splitFirst_of_forall {p : Char → Bool} {cs : List Char} (h : ∀ c ∈ cs, p c = false) :
    splitFirst p cs = (cs, none) := by
  induction cs with
  | nil => rfl
  | cons c cs ih =>
    obtain ⟨hc, hcs⟩ := List.forall_mem_cons.1 h
    simp [splitFirst, hc, ih hcs]

theorem splitFirst_append {p : Char → Bool} {front : List Char} {d : Char}
    (h : ∀ c ∈ front, p c = false) (hd : p d = true) (rest : List Char) :
    splitFirst p (front ++ d :: rest) = (front, some (d, rest)) := by
  induction front with
  | nil => simp [splitFirst, hd]
  | cons c cs ih =>
    obtain ⟨hc, hcs⟩ := List.forall_mem_cons.1 h
    simp [splitFirst, hc, ih hcs]

theorem beq_of_not_mem {d : Char} {cs : List Char} (h : d ∉ cs) : ∀ c ∈ cs, (c == d) = false := by
  intro c hc
  exact beq_eq_false_iff_ne.2 fun hcd => h (hcd ▸ hc)

theorem splitOnce_of_not_mem {d : Char} {cs : List Char} (h : d ∉ cs) :
    splitOnce d cs = (cs, none) := by
  simp [splitOnce, splitFirst_of_forall (beq_of_not_mem h)]

theorem splitOnce_append {d : Char} {front : List Char} (h : d ∉ front) (rest : List Char) :
    splitOnce d (front ++ d :: rest) = (front, some rest) := by
  simp [splitOnce, splitFirst_append (beq_of_not_mem h) (beq_self_eq_true d)]

theorem dropWhile_of_head {p : Char → Bool} {cs : List Char}
    (h : ∀ c ∈ cs.head?, p c = false) : cs.dropWhile p = cs := by
  cases cs with
  | nil => rfl
  | cons c cs => exact List.dropWhile_cons_of_neg (by simpa using h c rfl)

theorem trimEnd_of_last {cs : List Char} (h : ∀ c ∈ cs.getLast?, isBlank c = false) :
    trimEnd cs = cs := by
  rw [trimEnd, dropWhileEnd, dropWhile_of_head (by rwa [List.head?_reverse]),
    List.reverse_reverse]

structure Tidy (cs : List Char) : Prop where
  nonempty : cs ≠ []
  head : ∀ c ∈ cs.head?, isBlank c = false
  last : ∀ c ∈ cs.getLast?, isBlank c = false
  line : '\n' ∉ cs

theorem Tidy.trim_eq {cs : List Char} (h : Tidy cs) : trim cs = cs := by
  rw [trim, dropWhile_of_head h.head, trimEnd_of_last h.last]

theorem tidy_of_forall {cs : List Char} (hne : cs ≠ []) (h : ∀ c ∈ cs, isBlank c = false) :
    Tidy cs where
  nonempty := hne
  head c hc := h c (List.mem_of_mem_head? hc)
  last c hc := h c (List.mem_of_mem_getLast? hc)
  line hmem := by simpa [isBlank] using h _ hmem

theorem Tidy.spaced {front rest : List Char} (hf : Tidy front) (hr : Tidy rest) :
    Tidy (front ++ ' ' :: rest) where
  nonempty := by simp
  head c hc := by
    apply hf.head
    cases front with
    | nil => exact absurd rfl hf.nonempty
    | cons d ds => simpa using hc
  last c hc := by
    apply hr.last
    cases rest with
    | nil => exact absurd rfl hr.nonempty
    | cons d ds => simpa [List.getLast?_append, List.getLast?_cons] using hc
  line := by simp [hf.line, hr.line]

def chomp (line : List Char) : List Char :=
  if line.getLast? = some '\r' then line.dropLast else line

theorem chomp_of_last {line : List Char} (h : line.getLast? ≠ some '\r') : chomp line = line := by
  rw [chomp, if_neg h]

theorem chomp_append_return (line : List Char) : chomp (line ++ ['\r']) = line := by
  simp [chomp]

theorem chomp_cons {c : Char} {line : List Char} (h : ¬(c = '\r' ∧ line = [])) :
    chomp (c :: line) = c :: chomp line := by
  cases line with
  | nil => simpa [chomp] using h
  | cons d ds =>
    rw [chomp, chomp, List.getLast?_cons_cons, List.dropLast_cons_cons]
    split <;> rfl

theorem lines_feed {line : List Char} (h : '\n' ∉ line) (rest : List Char) :
    lines (line ++ '\n' :: rest) = chomp line :: lines rest := by
  induction line with
  | nil => rw [List.nil_append, lines]; rfl
  | cons c cs ih =>
    simp only [List.mem_cons, not_or] at h
    obtain ⟨hc, hcs⟩ := h
    by_cases hreturn : c = '\r' ∧ cs = []
    · obtain ⟨rfl, rfl⟩ := hreturn
      rw [List.singleton_append, lines]
      rfl
    · -- A carriage return at `c` would be taken along only if the line ended there.
      have hkept : ∀ tail, c = '\r' → cs ++ '\n' :: rest = '\n' :: tail → False := by
        intro tail hc' htail
        cases cs with
        | nil => exact hreturn ⟨hc', rfl⟩
        | cons d ds => exact hcs (by simp [(List.cons.inj htail).1])
      rw [List.cons_append, lines, ih hcs, chomp_cons hreturn]
      · exact Ne.symm hc
      · exact hkept

theorem Tidy.lines_eq {cs : List Char} (h : Tidy cs) (rest : List Char) :
    lines (cs ++ '\n' :: rest) = cs :: lines rest := by
  have hlast : cs.getLast? ≠ some '\r' := by
    intro hlast
    simpa [isBlank] using h.last _ hlast
  rw [lines_feed h.line, chomp_of_last hlast]

theorem isBlank_of_isDigit {c : Char} (h : c.isDigit = true) : isBlank c = false := by
  have hrange : 48 ≤ c.toNat ∧ c.toNat ≤ 57 := Char.isDigit_iff_toNat.1 h
  simp [isBlank]
  omega

theorem isBlank_of_isUpper {c : Char} (h : c.isUpper = true) : isBlank c = false := by
  have hrange : 65 ≤ c.toNat ∧ c.toNat ≤ 90 := of_decide_eq_true h
  simp [isBlank]
  omega

/-- Each name is a word in capital letters, and looking it up gives what it names. -/
structure Vocabulary {α : Type} (name : α → String) (find : List Char → Option α) : Prop where
  find_name (a : α) : find (name a).toList = some a
  isUpper (a : α) : ∀ c ∈ (name a).toList, c.isUpper = true
  nonempty (a : α) : (name a).toList ≠ []

section Vocabulary

variable {α : Type} {name : α → String} {find : List Char → Option α}

theorem vocabulary_of_all {all : List α} (hall : ∀ a, a ∈ all)
    (h : ∀ a ∈ all, find (name a).toList = some a ∧ (name a).toList ≠ [] ∧
      (name a).toList.all Char.isUpper = true) : Vocabulary name find where
  find_name a := (h a (hall a)).1
  isUpper a := List.all_eq_true.1 (h a (hall a)).2.2
  nonempty a := (h a (hall a)).2.1

theorem Vocabulary.tidy (h : Vocabulary name find) (a : α) : Tidy (name a).toList :=
  tidy_of_forall (h.nonempty a) fun c hc => isBlank_of_isUpper (h.isUpper a c hc)

theorem Vocabulary.not_mem (h : Vocabulary name find) (a : α) {c : Char} (hc : c.isUpper = false) :
    c ∉ (name a).toList := by
  intro hmem
  simp [h.isUpper a c hmem] at hc

end Vocabulary

end Text

namespace Word

theorem isDigit_of_mem {n : Nat} {c : Char} (h : c ∈ Nat.toDigits 10 n) : c.isDigit = true :=
  Nat.isDigit_of_mem_toDigits (by decide) (by decide) h

theorem digits?_toDigits (n : Nat) : digits? (Nat.toDigits 10 n) = some n := by
  have hall : (Nat.toDigits 10 n).all Char.isDigit = true :=
    List.all_eq_true.2 fun _ hc => isDigit_of_mem hc
  rw [digits?, if_pos ⟨Nat.toDigits_ne_nil, hall⟩, Nat.ofDigitChars_ten_toDigits]

theorem ofInt?_toInt (w : Word) : ofInt? w.toInt = some w := by
  rw [ofInt?, if_pos ⟨w.minValue_le_toInt, w.toInt_le⟩, Int64.ofInt_toInt]

theorem toList_text (w : Word) : w.text.toList =
    if w < 0 then '-' :: Nat.toDigits 10 w.toInt.natAbs else Nat.toDigits 10 w.toInt.natAbs := by
  unfold text
  split <;> simp

theorem mem_text {w : Word} {c : Char} (h : c ∈ w.text.toList) : c = '-' ∨ c.isDigit = true := by
  rw [toList_text] at h
  split at h
  · exact (List.mem_cons.1 h).imp id isDigit_of_mem
  · exact Or.inr (isDigit_of_mem h)

theorem ofText?_of_isDigit {cs : List Char} (h : ∀ c ∈ cs, c.isDigit = true) :
    ofText? cs = (digits? cs).bind fun n => ofInt? n := by
  unfold ofText?
  split
  · simp at h
  · simp at h
  · rfl

theorem ofText?_text (w : Word) : ofText? w.text.toList = some w := by
  rw [toList_text]
  split
  · next hneg =>
    have hint : w.toInt < 0 := Int64.lt_iff_toInt_lt.1 hneg
    -- The digits of the least word stand for a number that is no word before the sign is applied.
    have habs : -(w.toInt.natAbs : Int) = w.toInt := by omega
    simp only [ofText?, digits?_toDigits, Option.bind_some, habs, ofInt?_toInt]
  · next hpos =>
    have hint : 0 ≤ w.toInt := Int.not_lt.1 fun h => hpos (Int64.lt_iff_toInt_lt.2 h)
    have habs : (w.toInt.natAbs : Int) = w.toInt := by omega
    rw [ofText?_of_isDigit fun _ hc => isDigit_of_mem hc, digits?_toDigits]
    simp only [Option.bind_some, habs, ofInt?_toInt]

theorem text_not_blank {w : Word} {c : Char} (h : c ∈ w.text.toList) : Text.isBlank c = false := by
  rcases mem_text h with rfl | hdigit
  · rfl
  · exact Text.isBlank_of_isDigit hdigit

theorem tidy_text (w : Word) : Text.Tidy w.text.toList := by
  apply Text.tidy_of_forall
  · rw [toList_text]
    split
    · simp
    · exact Nat.toDigits_ne_nil
  · intro c hc
    exact text_not_blank hc

theorem parse_text (w : Word) : Word.parse w.text.toList = .ok w := by
  rw [Word.parse, w.tidy_text.trim_eq, ofText?_text]

end Word
end AbstractMachines
