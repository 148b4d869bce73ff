import AbstractMachines.Proofs.Numerals
import AbstractMachines.Proofs.RoundTrip

/-!
# Program texts line by line

A text is a sequence of lines that end in a line feed, and perhaps a last one that
does not. From this follow the number and the text of each line, how the lines of two
texts put together relate to the lines of the two, and that a carriage return before
each line feed makes no difference. Reading a program goes along the lines, so what
holds of the lines holds of the program and of the line that is reported.
-/

namespace AbstractMachines
namespace Text

def Terminated (cs : List Char) : Prop := cs = [] ∨ cs.getLast? = some '\n'

theorem induction_lines {motive : List Char → Prop} (nil : motive [])
    (last : ∀ line, line ≠ [] → '\n' ∉ line → motive line)
    (feed : ∀ line rest, '\n' ∉ line → motive rest → motive (line ++ '\n' :: rest))
    (cs : List Char) : motive cs := by
  by_cases hfeed : '\n' ∈ cs
  · obtain ⟨line, rest, hcs, hline⟩ := List.eq_append_cons_of_mem hfeed
    exact hcs ▸ feed line rest hline (induction_lines nil last feed rest)
  · by_cases hnil : cs = []
    · exact hnil ▸ nil
    · exact last cs hnil hfeed
termination_by cs.length
decreasing_by
  rw [hcs, List.length_append, List.length_cons]
  omega

theorem lines_last {line : List Char} (hne : line ≠ []) (h : '\n' ∉ line) : lines line = [line] := by
  induction line with
  | nil => exact absurd rfl hne
  | cons c cs ih =>
    simp only [List.mem_cons, not_or] at h
    obtain ⟨hc, hcs⟩ := h
    have hkept : ∀ tail, c = '\r' → cs = '\n' :: tail → False := by
      intro tail _ htail
      exact hcs (htail ▸ List.mem_cons_self)
    rw [lines]
    · by_cases hnil : cs = []
      · rw [hnil]
        rfl
      · rw [ih hnil hcs]
    · exact Ne.symm hc
    · exact hkept

theorem terminated_feed_iff {line rest : List Char} :
    Terminated (line ++ '\n' :: rest) ↔ Terminated rest := by
  cases rest with
  | nil => simp [Terminated]
  | cons c cs => simp [Terminated, List.getLast?_append, List.getLast?_cons_cons]

theorem not_terminated {line : List Char} (hne : line ≠ []) (h : '\n' ∉ line) :
    ¬Terminated line := by
  intro hline
  rcases hline with hnil | hlast
  · exact hne hnil
  · exact h (List.mem_of_mem_getLast? hlast)

theorem count_feed {line : List Char} (h : '\n' ∉ line) (rest : List Char) :
    (line ++ '\n' :: rest).count '\n' = rest.count '\n' + 1 := by
  rw [List.count_append, List.count_cons_self, List.count_eq_zero.2 h, Nat.zero_add]

theorem lines_append {cs : List Char} (h : Terminated cs) (rest : List Char) :
    lines (cs ++ rest) = lines cs ++ lines rest := by
  induction cs using induction_lines with
  | nil => rfl
  | last line hne hline => exact absurd h (not_terminated hne hline)
  | feed line cs hline ih =>
    rw [List.append_assoc, List.cons_append, lines_feed hline, lines_feed hline,
      ih (terminated_feed_iff.1 h), List.cons_append]

theorem length_lines {cs : List Char} (h : Terminated cs) : (lines cs).length = cs.count '\n' := by
  induction cs using induction_lines with
  | nil => rfl
  | last line hne hline => exact absurd h (not_terminated hne hline)
  | feed line cs hline ih =>
    rw [lines_feed hline, List.length_cons, ih (terminated_feed_iff.1 h), count_feed hline]

theorem mem_of_mem_chomp {line : List Char} {c : Char} (h : c ∈ chomp line) : c ∈ line := by
  unfold chomp at h
  split at h
  · exact (List.dropLast_sublist line).subset h
  · exact h

theorem mem_of_mem_lines {cs line : List Char} (h : line ∈ lines cs) : ∀ c ∈ line, c ∈ cs := by
  induction cs using induction_lines with
  | nil => simp [lines] at h
  | last line' hne hline =>
    rw [lines_last hne hline, List.mem_singleton] at h
    simp [h]
  | feed line' rest hline ih =>
    rw [lines_feed hline, List.mem_cons] at h
    intro c hc
    rcases h with rfl | h
    · simp [mem_of_mem_chomp hc]
    · simp [ih h c hc]

theorem newline_not_mem_lines {cs line : List Char} (h : line ∈ lines cs) : '\n' ∉ line := by
  induction cs using induction_lines with
  | nil => simp [lines] at h
  | last line' hne hline =>
    rw [lines_last hne hline, List.mem_singleton] at h
    exact h ▸ hline
  | feed line' rest hline ih =>
    rw [lines_feed hline, List.mem_cons] at h
    rcases h with rfl | h
    · exact fun hmem => hline (mem_of_mem_chomp hmem)
    · exact ih h

theorem Blank.of_mem_lines {cs line : List Char} (h : Blank cs) (hline : line ∈ lines cs) :
    Blank line := by
  intro c hc
  exact h c (mem_of_mem_lines hline c hc)

/-- A line of a text and its number: one more than the line feeds before it. A line that
ends in a line feed stands without a carriage return at its end. -/
inductive Stands : List Char → Nat → List Char → Prop where
  | ended {before line : List Char} (rest : List Char) (hb : Terminated before) (h : '\n' ∉ line) :
      Stands (before ++ (line ++ '\n' :: rest)) (before.count '\n' + 1) (chomp line)
  | unended {before line : List Char} (hb : Terminated before) (hne : line ≠ []) (h : '\n' ∉ line) :
      Stands (before ++ line) (before.count '\n' + 1) line

theorem Stands.below {cs line front : List Char} {n : Nat} (h : Stands cs n line)
    (hfront : '\n' ∉ front) : Stands (front ++ '\n' :: cs) (n + 1) line := by
  cases h with
  | ended rest hb h =>
    simpa [count_feed hfront] using Stands.ended rest ((@terminated_feed_iff front _).2 hb) h
  | unended hb hne h =>
    simpa [count_feed hfront] using Stands.unended ((@terminated_feed_iff front _).2 hb) hne h

theorem stands_iff {cs line : List Char} {n : Nat} :
    Stands cs n line ↔ ∃ k, n = k + 1 ∧ (lines cs)[k]? = some line := by
  constructor
  · intro h
    cases h with
    | @ended before line rest hb h =>
      refine ⟨_, rfl, ?_⟩
      rw [lines_append hb, lines_feed h, ← length_lines hb]
      simp
    | @unended before line hb hne h =>
      refine ⟨_, rfl, ?_⟩
      rw [lines_append hb, lines_last hne h, ← length_lines hb]
      simp
  · intro h
    obtain ⟨k, rfl, hk⟩ := h
    induction cs using induction_lines generalizing k with
    | nil => simp [lines] at hk
    | last line' hne h =>
      rw [lines_last hne h] at hk
      cases k with
      | zero =>
        cases hk
        exact .unended (.inl rfl) hne h
      | succ k => simp at hk
    | feed line' rest h ih =>
      rw [lines_feed h] at hk
      cases k with
      | zero =>
        cases hk
        exact .ended rest (.inl rfl) h
      | succ k => exact (ih k hk).below h

theorem lines_append_blank {cs blank : List Char} (hlast : cs.getLast? ≠ some '\r')
    (hblank : Blank blank) :
    ∃ more, (∀ line ∈ more, Blank line) ∧ lines (cs ++ '\n' :: blank) = lines cs ++ more := by
  have hmore : ∀ line ∈ lines blank, Blank line := fun _ hline => hblank.of_mem_lines hline
  induction cs using induction_lines with
  | nil => exact ⟨[] :: lines blank, by simpa [Blank] using hmore, lines_feed (by simp) blank⟩
  | last line hne hline =>
    refine ⟨lines blank, hmore, ?_⟩
    rw [lines_feed hline, chomp_of_last hlast, lines_last hne hline]
    rfl
  | feed line rest hline ih =>
    have hrest : rest.getLast? ≠ some '\r' := by
      intro h
      apply hlast
      simp [List.getLast?_append, List.getLast?_cons, h]
    obtain ⟨more, hblanks, heq⟩ := ih hrest
    refine ⟨more, hblanks, ?_⟩
    rw [List.append_assoc, List.cons_append, lines_feed hline, heq, lines_feed hline,
      List.cons_append]

def crlf (cs : List Char) : List Char :=
  cs.flatMap fun c => if c = '\n' then ['\r', '\n'] else [c]

theorem crlf_of_not_mem {line : List Char} (h : '\n' ∉ line) : crlf line = line := by
  induction line with
  | nil => rfl
  | cons c cs ih =>
    simp only [List.mem_cons, not_or] at h
    obtain ⟨hc, hcs⟩ := h
    rw [crlf, List.flatMap_cons, if_neg (Ne.symm hc), ← crlf, ih hcs]
    rfl

theorem crlf_feed {line : List Char} (h : '\n' ∉ line) (rest : List Char) :
    crlf (line ++ '\n' :: rest) = (line ++ ['\r']) ++ '\n' :: crlf rest := by
  rw [crlf, List.flatMap_append, ← crlf, crlf_of_not_mem h]
  simp [crlf]

theorem lines_crlf {cs : List Char} (h : ¬['\r', '\n'] <:+: cs) : lines (crlf cs) = lines cs := by
  induction cs using induction_lines with
  | nil => rfl
  | last line hne hline => rw [crlf_of_not_mem hline]
  | feed line rest hline ih =>
    have hlast : line.getLast? ≠ some '\r' := by
      intro hreturn
      obtain ⟨front, rfl⟩ := List.getLast?_eq_some_iff.1 hreturn
      exact h ⟨front, rest, by simp⟩
    have hrest : ¬['\r', '\n'] <:+: rest := by
      intro hpair
      exact h (hpair.trans ⟨line ++ ['\n'], [], by simp⟩)
    have hreturn : '\n' ∉ line ++ ['\r'] := by simp [hline]
    rw [crlf_feed hline, lines_feed hreturn, chomp_append_return, ih hrest, lines_feed hline,
      chomp_of_last hlast]

end Text

def ProgramError.below (k : Nat) (e : ProgramError) : ProgramError := ⟨e.line + k, e.cause⟩

namespace Program

variable {ι : Type} [InstructionSet ι]

section Step

variable {line : List Char} (rest : List (List Char)) (n : Nat)

theorem parseLines_of_blank (h : Text.Blank line) :
    parseLines (ι := ι) n (line :: rest) = parseLines (n + 1) rest := by
  rw [parseLines, if_pos (Text.trim_eq_nil_iff.2 h)]

theorem parseLines_of_ok {i : ι} (h : ¬Text.Blank line) (hi : InstructionSet.parse line = .ok i) :
    parseLines n (line :: rest) = (parseLines (n + 1) rest).map (i :: ·) := by
  rw [parseLines, if_neg (mt Text.trim_eq_nil_iff.1 h), hi]

theorem parseLines_of_error {cause : ParseError} (h : ¬Text.Blank line)
    (hcause : InstructionSet.parse (ι := ι) line = .error cause) :
    parseLines (ι := ι) n (line :: rest) = .error ⟨n, cause⟩ := by
  rw [parseLines, if_neg (mt Text.trim_eq_nil_iff.1 h), hcause]

end Step

theorem parseLines_below (n k : Nat) (ls : List (List Char)) :
    parseLines (ι := ι) (n + k) ls = (parseLines n ls).mapError (·.below k) := by
  induction ls generalizing n with
  | nil => rfl
  | cons line rest ih =>
    have hrest := ih (n + 1)
    rw [Nat.add_right_comm] at hrest
    by_cases hblank : Text.Blank line
    · rw [parseLines_of_blank rest _ hblank, parseLines_of_blank rest _ hblank, hrest]
    cases hline : InstructionSet.parse (ι := ι) line with
    | error cause =>
      rw [parseLines_of_error rest _ hblank hline, parseLines_of_error rest _ hblank hline]
      rfl
    | ok i =>
      rw [parseLines_of_ok rest _ hblank hline, parseLines_of_ok rest _ hblank hline, hrest]
      cases parseLines (ι := ι) (n + 1) rest <;> rfl

theorem parseLines_append (n : Nat) (ls ms : List (List Char)) :
    parseLines (ι := ι) n (ls ++ ms) =
      (parseLines n ls).bind fun code => (parseLines (n + ls.length) ms).map (code ++ ·) := by
  induction ls generalizing n with
  | nil => cases h : parseLines (ι := ι) n ms <;> simp [parseLines, h, Except.bind, Except.map]
  | cons line rest ih =>
    have hlength : n + (line :: rest).length = n + 1 + rest.length := by
      rw [List.length_cons]
      omega
    rw [List.cons_append, hlength]
    by_cases hblank : Text.Blank line
    · rw [parseLines_of_blank _ n hblank, parseLines_of_blank _ n hblank, ih]
    cases hline : InstructionSet.parse (ι := ι) line with
    | error cause =>
      rw [parseLines_of_error _ n hblank hline, parseLines_of_error _ n hblank hline]
      rfl
    | ok i =>
      rw [parseLines_of_ok _ n hblank hline, parseLines_of_ok _ n hblank hline, ih]
      cases parseLines (ι := ι) (n + 1) rest with
      | error e => rfl
      | ok code => cases parseLines (ι := ι) (n + 1 + rest.length) ms <;> rfl

theorem parseLines_blank {ls : List (List Char)} (h : ∀ line ∈ ls, Text.Blank line) (n : Nat) :
    parseLines (ι := ι) n ls = .ok [] := by
  induction ls generalizing n with
  | nil => rfl
  | cons line rest ih =>
    obtain ⟨hline, hrest⟩ := List.forall_mem_cons.1 h
    rw [parseLines_of_blank rest n hline, ih hrest]

def Passes (ι : Type) [InstructionSet ι] (line : List Char) : Prop :=
  Text.Blank line ∨ ∃ i : ι, InstructionSet.parse line = .ok i

theorem parseLines_of_passes {ls : List (List Char)} (h : ∀ line ∈ ls, Passes ι line) (n : Nat) :
    ∃ code, parseLines (ι := ι) n ls = .ok code := by
  induction ls generalizing n with
  | nil => exact ⟨[], rfl⟩
  | cons line rest ih =>
    obtain ⟨hline, hrest⟩ := List.forall_mem_cons.1 h
    obtain ⟨code, hcode⟩ := ih hrest (n + 1)
    by_cases hblank : Text.Blank line
    · exact ⟨code, by rw [parseLines_of_blank rest n hblank, hcode]⟩
    · obtain ⟨i, hi⟩ := hline.resolve_left hblank
      refine ⟨i :: code, ?_⟩
      rw [parseLines_of_ok rest n hblank hi, hcode]
      rfl

/-- The first line that does not pass, with the number it is reported under when the lines
are counted from `n`. -/
inductive Stops (ι : Type) [InstructionSet ι] (n : Nat) : List (List Char) → ProgramError → Prop where
  | intro {front back : List (List Char)} {line : List Char} {cause : ParseError}
      (hfront : ∀ l ∈ front, Passes ι l) (hblank : ¬Text.Blank line)
      (hline : InstructionSet.parse (ι := ι) line = .error cause) :
      Stops ι n (front ++ line :: back) ⟨n + front.length, cause⟩

theorem Stops.below {ls : List (List Char)} {n : Nat} {e : ProgramError} (h : Stops ι (n + 1) ls e)
    {line : List Char} (hline : Passes ι line) : Stops ι n (line :: ls) e := by
  obtain ⟨hfront, hblank, hcause⟩ := h
  rw [Nat.add_right_comm]
  exact .intro (List.forall_mem_cons.2 ⟨hline, hfront⟩) hblank hcause

theorem parseLines_eq_error_iff {ls : List (List Char)} {n : Nat} {e : ProgramError} :
    parseLines (ι := ι) n ls = .error e ↔ Stops ι n ls e := by
  constructor
  · intro h
    induction ls generalizing n with
    | nil => cases h
    | cons line rest ih =>
      by_cases hblank : Text.Blank line
      · rw [parseLines_of_blank rest n hblank] at h
        exact (ih h).below (.inl hblank)
      cases hline : InstructionSet.parse (ι := ι) line with
      | error cause =>
        rw [parseLines_of_error rest n hblank hline] at h
        cases h
        exact @Stops.intro ι _ n [] rest line cause (by simp) hblank hline
      | ok i =>
        rw [parseLines_of_ok rest n hblank hline] at h
        exact (ih (map_eq_error_iff.1 h)).below (.inr ⟨i, hline⟩)
  · intro h
    obtain ⟨hfront, hblank, hline⟩ := h
    obtain ⟨code, hcode⟩ := parseLines_of_passes hfront n
    rw [parseLines_append, hcode, Except.bind, parseLines_of_error _ _ hblank hline]
    rfl

theorem parse_append {front : List Char} (h : Text.Terminated front) (rest : List Char) :
    parse (ι := ι) (front ++ rest) =
      (parse front).bind fun p =>
        ((parse rest).mapError (·.below (front.count '\n'))).map fun q => ⟨p.code ++ q.code⟩ := by
  rw [parse, parse, parse, Text.lines_append h, parseLines_append, Text.length_lines h,
    parseLines_below]
  cases parseLines (ι := ι) 1 (Text.lines front) with
  | error e => rfl
  | ok p =>
    cases parseLines (ι := ι) 1 (Text.lines rest) with
    | error e => rfl
    | ok q => simp [Except.bind, Except.map, Except.mapError]

section Append

variable {front rest : List Char} {p q : Program ι} {e : ProgramError}

theorem parse_append_of_error (h : Text.Terminated front) (hp : parse (ι := ι) front = .error e) :
    parse (ι := ι) (front ++ rest) = .error e := by
  rw [parse_append h, hp]
  rfl

theorem parse_append_of_ok_error (h : Text.Terminated front) (hp : parse front = .ok p)
    (hq : parse (ι := ι) rest = .error e) :
    parse (ι := ι) (front ++ rest) = .error (e.below (front.count '\n')) := by
  rw [parse_append h, hp, hq]
  rfl

theorem parse_append_of_ok_ok (h : Text.Terminated front) (hp : parse front = .ok p)
    (hq : parse rest = .ok q) : parse (front ++ rest) = .ok ⟨p.code ++ q.code⟩ := by
  rw [parse_append h, hp, hq]
  rfl

end Append

theorem parse_eq_error_iff {text : List Char} {e : ProgramError} :
    parse (ι := ι) text = .error e ↔
      ∃ line, Text.Stands text e.line line ∧ ¬Text.Blank line ∧
        InstructionSet.parse (ι := ι) line = .error e.cause ∧
        ∀ n < e.line, ∀ l, Text.Stands text n l → Passes ι l := by
  rw [parse, map_eq_error_iff, parseLines_eq_error_iff]
  simp only [Text.stands_iff]
  constructor
  · generalize Text.lines text = ls
    intro h
    cases h with
    | @intro front back line cause hfront hblank hline =>
      refine ⟨line, ⟨front.length, Nat.add_comm 1 _, by simp⟩, hblank, hline, ?_⟩
      intro n hn l hl
      obtain ⟨k, rfl, hk⟩ := hl
      have hlt : k < front.length := by
        simp only at hn
        omega
      rw [List.getElem?_append_left hlt] at hk
      exact hfront l (List.mem_of_getElem? hk)
  · intro h
    obtain ⟨number, cause⟩ := e
    obtain ⟨line, ⟨k, rfl, hk⟩, hblank, hline, hearlier⟩ := h
    obtain ⟨hlt, rfl⟩ := List.getElem?_eq_some_iff.1 hk
    have hfront : ∀ l ∈ (Text.lines text).take k, Passes ι l := by
      intro l hl
      obtain ⟨j, hj, rfl⟩ := List.mem_take_iff_getElem.1 hl
      exact hearlier (j + 1) (by simp; omega) _ ⟨j, rfl, List.getElem?_eq_getElem _⟩
    have hstops : Stops ι 1 ((Text.lines text).take k ++ _ :: (Text.lines text).drop (k + 1)) _ :=
      .intro hfront hblank hline
    rwa [← List.drop_eq_getElem_cons hlt, List.take_append_drop,
      List.length_take_of_le (Nat.le_of_lt hlt), Nat.add_comm 1 k] at hstops

theorem line_pos_of_parse {text : List Char} {e : ProgramError}
    (h : parse (ι := ι) text = .error e) : 1 ≤ e.line := by
  obtain ⟨line, hstands, -⟩ := parse_eq_error_iff.1 h
  obtain ⟨k, hk, -⟩ := Text.stands_iff.1 hstands
  omega

theorem line_le_of_parse {text : List Char} {e : ProgramError} (ht : Text.Terminated text)
    (h : parse (ι := ι) text = .error e) : e.line ≤ text.count '\n' := by
  obtain ⟨line, hstands, -⟩ := parse_eq_error_iff.1 h
  obtain ⟨k, hk, hline⟩ := Text.stands_iff.1 hstands
  obtain ⟨hlt, -⟩ := List.getElem?_eq_some_iff.1 hline
  rw [Text.length_lines ht] at hlt
  omega

theorem parse_blank {text : List Char} (h : Text.Blank text) : parse (ι := ι) text = .ok ⟨#[]⟩ := by
  rw [parse, parseLines_blank fun _ hline => h.of_mem_lines hline]
  rfl

theorem parse_blank_append {blank rest : List Char} (h : Text.Blank blank)
    (hlines : Text.Terminated blank ∨ rest = []) :
    parse (ι := ι) (blank ++ rest) = (parse rest).mapError (·.below (blank.count '\n')) := by
  rcases hlines with hblank | rfl
  · cases hq : parse (ι := ι) rest with
    | error e => exact parse_append_of_ok_error hblank (parse_blank h) hq
    | ok q =>
      rw [parse_append_of_ok_ok hblank (parse_blank h) hq, Array.empty_append]
      rfl
  · rw [List.append_nil, parse_blank h]
    rfl

theorem parse_insert_blank {front blank rest : List Char} (hfront : Text.Terminated front)
    (h : Text.Blank blank) (hlines : Text.Terminated blank ∨ rest = []) :
    parse (ι := ι) (front ++ blank ++ rest) =
      (parse (front ++ rest)).mapError fun e =>
        if e.line ≤ front.count '\n' then e else e.below (blank.count '\n') := by
  have hpushed := parse_blank_append (ι := ι) h hlines
  rw [List.append_assoc]
  cases hp : parse (ι := ι) front with
  | error e =>
    have hle := line_le_of_parse hfront hp
    rw [parse_append_of_error hfront hp, parse_append_of_error hfront hp, Except.mapError,
      if_pos hle]
  | ok p =>
    cases hq : parse (ι := ι) rest with
    | error e =>
      have hpos := line_pos_of_parse hq
      have hlater : ¬(e.below (front.count '\n')).line ≤ front.count '\n' := by
        simp only [ProgramError.below]
        omega
      rw [hq] at hpushed
      rw [parse_append_of_ok_error hfront hp hpushed, parse_append_of_ok_error hfront hp hq,
        Except.mapError, if_neg hlater]
      simp only [ProgramError.below, Nat.add_right_comm]
    | ok q =>
      rw [hq] at hpushed
      rw [parse_append_of_ok_ok hfront hp hpushed, parse_append_of_ok_ok hfront hp hq]
      rfl

theorem parse_append_blank {text blank : List Char} (hlast : text.getLast? ≠ some '\r')
    (h : Text.Blank blank) : parse (ι := ι) (text ++ '\n' :: blank) = parse text := by
  obtain ⟨more, hmore, hlines⟩ := Text.lines_append_blank hlast h
  rw [parse, parse, hlines, parseLines_append, parseLines_blank hmore]
  cases parseLines (ι := ι) 1 (Text.lines text) with
  | error e => rfl
  | ok code => simp [Except.bind, Except.map]

end Program

/-- The program of two texts put together at the end of a line is the first program followed
by the second, or the first error of the two, which is counted from the start of the whole.
Blank lines between them, or at the end, change nothing but the number of a line below them.
The line reported is the first that is neither blank nor an instruction. -/
theorem program_texts_compose (kind : Kind) :
    (∀ front rest : List Char, Text.Terminated front →
      Program.parse (ι := kind.Instruction) (front ++ rest) =
        match Program.parse (ι := kind.Instruction) front with
        | .error e => .error e
        | .ok p =>
          match Program.parse (ι := kind.Instruction) rest with
          | .error e => .error ⟨e.line + front.count '\n', e.cause⟩
          | .ok q => .ok ⟨p.code ++ q.code⟩) ∧
    (∀ front blank rest : List Char, Text.Terminated front → Text.Blank blank →
      Text.Terminated blank ∨ rest = [] →
        Program.parse (ι := kind.Instruction) (front ++ blank ++ rest) =
          (Program.parse (ι := kind.Instruction) (front ++ rest)).mapError fun e =>
            if e.line ≤ front.count '\n' then e else ⟨e.line + blank.count '\n', e.cause⟩) ∧
    (∀ text blank : List Char, text.getLast? ≠ some '\r' → Text.Blank blank →
      Program.parse (ι := kind.Instruction) (text ++ '\n' :: blank) = Program.parse text) ∧
    ∀ (text : List Char) (e : ProgramError),
      Program.parse (ι := kind.Instruction) text = .error e ↔
        ∃ line, Text.Stands text e.line line ∧ ¬Text.Blank line ∧
          InstructionSet.parse (ι := kind.Instruction) line = .error e.cause ∧
          ∀ n < e.line, ∀ l, Text.Stands text n l →
            Text.Blank l ∨ ∃ i : kind.Instruction, InstructionSet.parse l = .ok i := by
  refine ⟨?_, ?_, ?_, ?_⟩
  · intro front rest hfront
    cases hp : Program.parse (ι := kind.Instruction) front with
    | error e => exact Program.parse_append_of_error hfront hp
    | ok p =>
      cases hq : Program.parse (ι := kind.Instruction) rest with
      | error e => exact Program.parse_append_of_ok_error hfront hp hq
      | ok q => exact Program.parse_append_of_ok_ok hfront hp hq
  · intro front blank rest hfront hblank hlines
    exact Program.parse_insert_blank hfront hblank hlines
  · intro text blank hlast hblank
    exact Program.parse_append_blank hlast hblank
  · intro text e
    exact Program.parse_eq_error_iff

def sumLines : List Char := "LIT 1\r\n\nADD\n".toList

def jumpLines : List Char := " \nJMP x\nADD".toList

def gap : List Char := "\t\r\n\u2003\n".toList

theorem jumpLines_reported_below :
    Program.parse (ι := Kind.am1.Instruction) (sumLines ++ jumpLines) =
        .error ⟨2 + 3, .invalidPayload "x"⟩ ∧
      Program.parse (ι := Kind.am1.Instruction) (sumLines ++ gap ++ jumpLines) =
        .error ⟨2 + 3 + 2, .invalidPayload "x"⟩ ∧
      Program.parse (ι := Kind.am1.Instruction) (sumLines ++ "CALL".toList ++ '\n' :: gap) =
        .ok ⟨#[.lit 1, .operator .add, .call 0]⟩ ∧
      ∃ line, Text.Stands (sumLines ++ jumpLines) 5 line ∧ ¬Text.Blank line := by
  obtain ⟨happend, hinsert, hend, herror⟩ := program_texts_compose .am1
  have hfront : Text.Terminated sumLines := .inr rfl
  have hgap : Text.Blank gap := by
    have hall : gap.all Text.isBlank = true := rfl
    exact List.all_eq_true.1 hall
  have hwhole : Program.parse (ι := Kind.am1.Instruction) (sumLines ++ jumpLines) =
      .error ⟨2 + 3, .invalidPayload "x"⟩ := happend sumLines jumpLines hfront
  refine ⟨hwhole, ?_, ?_, ?_⟩
  · exact (hinsert sumLines gap jumpLines hfront hgap (.inl (.inr rfl))).trans (by rw [hwhole]; rfl)
  · exact hend (sumLines ++ "CALL".toList) gap (by decide +kernel) hgap
  · obtain ⟨line, hline, hblank, -⟩ := (herror _ _).1 hwhole
    exact ⟨line, hline, hblank⟩

/-- A carriage return before each line feed changes neither the program nor the error. -/
theorem carriage_returns_do_not_matter (kind : Kind) (text : List Char)
    (h : ¬['\r', '\n'] <:+: text) :
    Program.parse (ι := kind.Instruction) (Text.crlf text) = Program.parse text := by
  rw [Program.parse, Program.parse, Text.lines_crlf h]

def strayReturns : List Char := "LIT 1\n\n\r \nJMP\r 3\nADD\r".toList

theorem strayReturns_read_alike :
    (¬['\r', '\n'] <:+: strayReturns) ∧
      Program.parse (ι := Kind.am0.Instruction) (Text.crlf strayReturns) =
        Program.parse strayReturns ∧
      Program.parse (ι := Kind.am0.Instruction) strayReturns =
        .error ⟨4, .unknownInstruction "JMP\r"⟩ := by
  have h : ¬['\r', '\n'] <:+: strayReturns := by decide +kernel
  exact ⟨h, carriage_returns_do_not_matter .am0 strayReturns h, rfl⟩

end AbstractMachines
