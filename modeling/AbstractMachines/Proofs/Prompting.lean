import AbstractMachines.Proofs.Dialogue
import AbstractMachines.Proofs.Encoding
import AbstractMachines.Proofs.SourceLines
import Mathlib.Data.List.Forall2

/-!
# Reading at a prompt

A stream of bytes consists of physical lines, each of which ends at a line feed or with
the stream. Reading takes one of them at a time, and asking for a word takes as many as
are needed: lines that hold no word are rejected one after the other until there is one
with a word, one that cannot be decoded, or none. On a text that is encoded as a whole
the words asked for are those of its lines, in order, and nothing after that; and the
lines read one by one are those of the text, up to carriage returns at their ends.
-/

namespace AbstractMachines

namespace Line

/-- The stream begins with the physical line, which ends at a line feed or with the stream,
and the rest follows. -/
inductive Leads : List UInt8 → List UInt8 → List UInt8 → Prop where
  | ended {line : List UInt8} (rest : List UInt8) (h : 10 ∉ line) :
      Leads line rest (line ++ 10 :: rest)
  | unended {line : List UInt8} (hne : line ≠ []) (h : 10 ∉ line) : Leads line [] line

inductive Cuts : List (List UInt8) → List UInt8 → List UInt8 → Prop where
  | nil (rest : List UInt8) : Cuts [] rest rest
  | cons {line rest tail bytes : List UInt8} {lines : List (List UInt8)}
      (h : Leads line tail bytes) (hs : Cuts lines rest tail) : Cuts (line :: lines) rest bytes

theorem exists_leads {bytes : List UInt8} (hne : bytes ≠ []) : ∃ line rest, Leads line rest bytes := by
  by_cases hfeed : 10 ∈ bytes
  · obtain ⟨line, rest, rfl, hline⟩ := List.eq_append_cons_of_mem hfeed
    exact ⟨line, rest, .ended rest hline⟩
  · exact ⟨bytes, [], .unended hne hfeed⟩

theorem Leads.length_lt {line rest bytes : List UInt8} (h : Leads line rest bytes) :
    rest.length < bytes.length := by
  cases h with
  | ended rest h =>
    rw [List.length_append, List.length_cons]
    omega
  | unended hne h => exact List.length_pos_iff.2 hne

theorem induction_leads {motive : List UInt8 → Prop} (nil : motive [])
    (lead : ∀ line rest bytes, Leads line rest bytes → motive rest → motive bytes)
    (bytes : List UInt8) : motive bytes := by
  by_cases hne : bytes = []
  · exact hne ▸ nil
  · obtain ⟨line, rest, h⟩ := exists_leads hne
    have hlt := h.length_lt
    exact lead line rest bytes h (induction_leads nil lead rest)
termination_by bytes.length

theorem Leads.split_eq {line rest bytes : List UInt8} (h : Leads line rest bytes) :
    split bytes = line :: split rest := by
  cases h with
  | ended rest h =>
    have hfeed : split (10 :: rest) = [] :: split rest := rfl
    by_cases hnil : line = []
    · rw [hnil, List.nil_append, hfeed]
    · rw [split_append hnil h, hfeed]
      simp only [List.append_nil]
  | unended hne h => simpa [split] using split_append hne h []

theorem Leads.all_eq {line rest bytes : List UInt8} (h : Leads line rest bytes) :
    all bytes = ofBytes line :: all rest := by
  rw [all, h.split_eq, List.map_cons, ← all]

theorem cuts_split (bytes : List UInt8) : Cuts (split bytes) [] bytes := by
  induction bytes using induction_leads with
  | nil => exact .nil []
  | lead line rest bytes h ih =>
    rw [h.split_eq]
    exact .cons h ih

theorem ofBytes_encode (cs : List Char) :
    ofBytes (Text.encode cs) = text (Text.dropWhileEnd (· == '\r') cs) := by
  simp only [ofBytes, decode?_encode]

theorem ofBytes_garbled {line : List UInt8} (h : ∀ cs, line ≠ Text.encode cs) :
    ofBytes line = garbled := by
  have hnone : decode? line = none := by
    cases hd : decode? line with
    | none => rfl
    | some cs => exact absurd (decode?_eq_some_iff.1 hd) (h cs)
  simp only [ofBytes, hnone]

end Line

namespace Console

def reading (bytes : List UInt8) (shown : ByteArray) : Console := ⟨Line.all bytes, ⟨shown, none⟩⟩

theorem write_free (s : String) (lines : List Line) (shown : ByteArray) :
    write s ⟨lines, ⟨shown, none⟩⟩ = (.ok (), ⟨lines, ⟨shown ++ s.toUTF8, none⟩⟩) := rfl

theorem readLine_free (prompt : String) (lines : List Line) (shown : ByteArray) :
    readLine prompt ⟨lines, ⟨shown, none⟩⟩ =
      match lines with
      | [] => (.ok none, ⟨[], ⟨shown ++ prompt.toUTF8, none⟩⟩)
      | .text cs :: rest => (.ok (some cs), ⟨rest, ⟨shown ++ prompt.toUTF8, none⟩⟩)
      | .garbled :: rest => (.error .invalidData, ⟨rest, ⟨shown ++ prompt.toUTF8, none⟩⟩) :=
  readLine_of_ok rfl lines

section Ask

variable {line rest bytes : List UInt8} {cs : List Char} (shown : ByteArray)

theorem ask_reading_nil :
    (reading [] shown).ask = (none, reading [] (shown ++ inputPrompt.toUTF8)) := by
  rw [reading, ask_unfold, readLine_free]
  rfl

theorem ask_reading_garbled (hl : Line.Leads line rest bytes) (h : ∀ cs, line ≠ Text.encode cs) :
    (reading bytes shown).ask = (none, reading rest (shown ++ inputPrompt.toUTF8)) := by
  rw [reading, hl.all_eq, Line.ofBytes_garbled h, ask_unfold, readLine_free]
  rfl

theorem ask_reading_word (hl : Line.Leads (Text.encode cs) rest bytes) {w : Word}
    (h : Word.Payload cs w) :
    (reading bytes shown).ask = (some w, reading rest (shown ++ inputPrompt.toUTF8)) := by
  have hw : Word.ofText? (Text.trim (Text.dropWhileEnd (· == '\r') cs)) = some w := by
    rw [Text.trim_dropReturns]
    exact Word.payload_iff.1 h
  rw [reading, hl.all_eq, Line.ofBytes_encode, ask_unfold, readLine_free]
  simp only [hw, reading]

theorem ask_reading_rejected (hl : Line.Leads (Text.encode cs) rest bytes)
    (h : ∀ w, ¬Word.Payload cs w) :
    (reading bytes shown).ask =
      (reading rest (shown ++ inputPrompt.toUTF8 ++ (rejection cs).toUTF8)).ask := by
  have hnone : Word.ofText? (Text.trim (Text.dropWhileEnd (· == '\r') cs)) = none := by
    rw [Text.trim_dropReturns, Option.eq_none_iff_forall_ne_some]
    intro w hw
    exact h w (Word.payload_iff.2 hw)
  have hreject : rejection (Text.dropWhileEnd (· == '\r') cs) = rejection cs := by
    unfold rejection
    rw [Text.trim_dropReturns]
  rw [reading, hl.all_eq, Line.ofBytes_encode, ask_unfold, readLine_free]
  simp only [hnone, hreject, write_free, reading]

end Ask

/-- How a stream can end the asking: by its first line, or by having none. -/
inductive Concludes : List UInt8 → Option Word → List UInt8 → Prop where
  | exhausted : Concludes [] none []
  | garbled {line rest bytes : List UInt8} (hl : Line.Leads line rest bytes)
      (h : ∀ cs, line ≠ Text.encode cs) : Concludes bytes none rest
  | word {rest bytes : List UInt8} {cs : List Char} {w : Word}
      (hl : Line.Leads (Text.encode cs) rest bytes) (h : Word.Payload cs w) :
      Concludes bytes (some w) rest

def exchange (rejected : List (List Char)) : String :=
  String.join (rejected.map fun cs =>
    "Input: " ++ "Error: invalid input '" ++ String.ofList (Text.trim cs) ++ "'\n") ++ "Input: "

theorem exchange_cons (cs : List Char) (rejected : List (List Char)) :
    (exchange (cs :: rejected)).toUTF8 =
      inputPrompt.toUTF8 ++ ((rejection cs).toUTF8 ++ (exchange rejected).toUTF8) := by
  unfold exchange inputPrompt rejection
  simp only [List.map_cons, String.join_cons, String.toUTF8_eq_toByteArray,
    String.toByteArray_append, ByteArray.append_assoc]

theorem ask_reading (bytes : List UInt8) (shown : ByteArray) :
    ∃ (rejected : List (List Char)) (tail : List UInt8) (v : Option Word) (rest : List UInt8),
      Line.Cuts (rejected.map Text.encode) tail bytes ∧
      (∀ cs ∈ rejected, ∀ w, ¬Word.Payload cs w) ∧ Concludes tail v rest ∧
      (reading bytes shown).ask = (v, reading rest (shown ++ (exchange rejected).toUTF8)) := by
  induction bytes using Line.induction_leads generalizing shown with
  | nil => exact ⟨[], [], none, [], .nil [], by simp, .exhausted, ask_reading_nil shown⟩
  | lead line rest bytes hl ih =>
    by_cases hgarbled : ∀ cs, line ≠ Text.encode cs
    · exact ⟨[], bytes, none, rest, .nil bytes, by simp, .garbled hl hgarbled,
        ask_reading_garbled shown hl hgarbled⟩
    obtain ⟨cs, hcs⟩ := not_forall_not.1 hgarbled
    subst hcs
    by_cases hword : ∀ w, ¬Word.Payload cs w
    · -- The asking goes on with the rest of the stream and more on the sink.
      obtain ⟨rejected, tail, v, later, hcuts, hrejected, hends, hask⟩ :=
        ih (shown ++ inputPrompt.toUTF8 ++ (rejection cs).toUTF8)
      refine ⟨cs :: rejected, tail, v, later, .cons hl hcuts,
        List.forall_mem_cons.2 ⟨hword, hrejected⟩, hends, ?_⟩
      rw [ask_reading_rejected shown hl hword, hask, exchange_cons, ByteArray.append_assoc,
        ByteArray.append_assoc]
    · obtain ⟨w, hw⟩ := not_forall_not.1 hword
      exact ⟨[], bytes, some w, rest, .nil bytes, by simp, .word hl hw,
        ask_reading_word shown hl hw⟩

def answer : Nat → Console → Option Word
  | 0, c => c.ask.1
  | n + 1, c => answer n c.ask.2

theorem answer_congr {c d : Console} (h : c.ask = d.ask) (n : Nat) : answer n c = answer n d := by
  cases n <;> simp only [answer, h]

inductive Spoken : List (List Char) → List Word → Prop where
  | nil : Spoken [] []
  | word {cs : List Char} {lines : List (List Char)} {w : Word} {words : List Word}
      (h : Word.Payload cs w) (hs : Spoken lines words) : Spoken (cs :: lines) (w :: words)
  | other {cs : List Char} {lines : List (List Char)} {words : List Word}
      (h : ∀ w, ¬Word.Payload cs w) (hs : Spoken lines words) : Spoken (cs :: lines) words

theorem exists_spoken (lines : List (List Char)) : ∃ words, Spoken lines words := by
  induction lines with
  | nil => exact ⟨[], .nil⟩
  | cons cs lines ih =>
    obtain ⟨words, hwords⟩ := ih
    by_cases hword : ∀ w, ¬Word.Payload cs w
    · exact ⟨words, .other hword hwords⟩
    · obtain ⟨w, hw⟩ := not_forall_not.1 hword
      exact ⟨w :: words, .word hw hwords⟩

theorem answer_reading_nil (n : Nat) (shown : ByteArray) : answer n (reading [] shown) = none := by
  induction n generalizing shown with
  | zero => rw [answer, ask_reading_nil]
  | succ n ih =>
    rw [answer, ask_reading_nil]
    exact ih _

theorem answer_reading {lines : List (List Char)} {words : List Word} (h : Spoken lines words)
    {bytes : List UInt8} (hcuts : Line.Cuts (lines.map Text.encode) [] bytes) (n : Nat)
    (shown : ByteArray) : answer n (reading bytes shown) = words[n]? := by
  induction h generalizing bytes n shown with
  | nil =>
    cases hcuts
    exact answer_reading_nil n shown
  | word h hs ih =>
    cases hcuts with
    | cons hl hrest =>
      cases n with
      | zero => rw [answer, ask_reading_word shown hl h, List.getElem?_cons_zero]
      | succ n =>
        rw [answer, ask_reading_word shown hl h, List.getElem?_cons_succ]
        exact ih hrest n _
  | other h hs ih =>
    -- The line is taken by the call that the next line answers, so no number is used up.
    cases hcuts with
    | cons hl hrest =>
      rw [answer_congr (ask_reading_rejected shown hl h)]
      exact ih hrest n _

inductive Reads (prompt : String) : Console → List (List Char) → Console → Prop where
  | done {c d : Console} (h : c.readLine prompt = (.ok none, d)) : Reads prompt c [] d
  | more {c d e : Console} {line : List Char} {lines : List (List Char)}
      (h : c.readLine prompt = (.ok (some line), d)) (hs : Reads prompt d lines e) :
      Reads prompt c (line :: lines) e

theorem reads_texts (prompt : String) (lines : List (List Char)) (shown : ByteArray) :
    Reads prompt ⟨lines.map .text, ⟨shown, none⟩⟩ lines
      ⟨[], ⟨shown ++ (String.join (List.replicate (lines.length + 1) prompt)).toUTF8, none⟩⟩ := by
  induction lines generalizing shown with
  | nil =>
    have hone : String.join (List.replicate 1 prompt) = prompt := by simp
    rw [List.length_nil, hone]
    exact .done (readLine_free prompt [] shown)
  | cons line lines ih =>
    rw [List.length_cons, List.replicate_succ, String.join_cons, String.toUTF8_eq_toByteArray,
      String.toByteArray_append, ← ByteArray.append_assoc]
    exact .more (readLine_free prompt (.text line :: lines.map .text) shown) (ih _)

end Console

/-- Asking for a word on a stream of bytes rejects the physical lines that hold none, showing a
prompt and a message for each, and ends with one more prompt at the first line that holds a word
or is not decodable, or at the end of the stream; the lines up to there are taken. On a text
the answers are the words of its lines in order, and then always none. -/
theorem prompting_delivers_the_words :
    (∀ (bytes : List UInt8) (shown : ByteArray),
      ∃ (rejected : List (List Char)) (tail : List UInt8) (v : Option Word) (rest : List UInt8),
        Line.Cuts (rejected.map Text.encode) tail bytes ∧
        (∀ cs ∈ rejected, ∀ w, ¬Word.Payload cs w) ∧ Console.Concludes tail v rest ∧
        (Console.reading bytes shown).ask =
          (v, Console.reading rest (shown ++ (Console.exchange rejected).toUTF8))) ∧
    ∀ (text : String) (shown : ByteArray),
      ∃ (lines : List (List Char)) (words : List Word),
        Line.Cuts (lines.map Text.encode) [] text.toUTF8.data.toList ∧
        Console.Spoken lines words ∧
        ∀ n, (Console.reading text.toUTF8.data.toList shown).answer n = words[n]? := by
  refine ⟨Console.ask_reading, fun text shown => ?_⟩
  obtain ⟨lines, hsplit, -⟩ := Line.split_encode text.toList
  obtain ⟨words, hwords⟩ := Console.exists_spoken lines
  have hcuts : Line.Cuts (lines.map Text.encode) [] text.toUTF8.data.toList := by
    rw [Text.toUTF8_data, ← hsplit]
    exact Line.cuts_split _
  exact ⟨lines, words, hcuts, hwords, fun n => Console.answer_reading hwords hcuts n shown⟩

namespace Text

theorem last_dropWhileEnd {p : Char → Bool} {cs : List Char} {c : Char}
    (h : (dropWhileEnd p cs).getLast? = some c) : p c = false := by
  rw [dropWhileEnd, List.getLast?_reverse] at h
  have hhead := List.head?_dropWhile_not p cs.reverse
  rw [h] at hhead
  exact hhead

theorem mem_of_mem_dropWhileEnd {p : Char → Bool} {cs : List Char} {c : Char}
    (h : c ∈ dropWhileEnd p cs) : c ∈ cs := by
  have hprefix : dropWhileEnd p cs <+: cs := List.rdropWhile_prefix p cs
  exact hprefix.subset h

end Text

/-- The lines read at a prompt until the end of a text are as many as the lines of the text,
in the same order, and differ from them in carriage returns at their ends at most. None of
those is left, and there is one prompt more than there are lines. -/
theorem prompted_lines_are_source_lines (text prompt : String) (shown : ByteArray) :
    ∃ (lines : List (List Char)) (c : Console),
      Console.Reads prompt (Console.reading text.toUTF8.data.toList shown) lines c ∧
      lines.length = (Text.lines text.toList).length ∧
      List.Forall₂ (fun l m => Text.dropWhileEnd (· == '\r') l = Text.dropWhileEnd (· == '\r') m)
        lines (Text.lines text.toList) ∧
      (∀ line ∈ lines, line.getLast? ≠ some '\r' ∧ '\n' ∉ line) ∧
      c.sink.bytes = shown ++ (String.join (List.replicate (lines.length + 1) prompt)).toUTF8 := by
  have hreads := Console.reads_texts prompt
    ((Text.lines text.toList).map (Text.dropWhileEnd (· == '\r'))) shown
  have hconsole := Line.all_toUTF8 text
  rw [← Function.comp_def, ← List.map_map] at hconsole
  rw [← hconsole] at hreads
  refine ⟨_, _, hreads, List.length_map _, ?_, ?_, rfl⟩
  · rw [List.forall₂_map_left_iff, List.forall₂_same]
    intro line _
    exact List.rdropWhile_idempotent (· == '\r') line
  · intro line hline
    obtain ⟨source, hsource, rfl⟩ := List.mem_map.1 hline
    constructor
    · intro hlast
      simpa using Text.last_dropWhileEnd hlast
    · intro hfeed
      exact Text.newline_not_mem_lines hsource (Text.mem_of_mem_dropWhileEnd hfeed)

end AbstractMachines
