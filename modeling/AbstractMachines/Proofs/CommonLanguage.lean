import AbstractMachines.Proofs.Grammar
import AbstractMachines.Proofs.SourceLines
import Mathlib.Data.List.Forall2

/-!
# The language that both instruction sets read

The operators, literals, and plain and conditional jumps belong to both instruction
sets. A name ends at the first space for the one and at the first space or parenthesis
for the other, and an operand is either a payload or one of three forms. Where the text
before the first space is a common name no parenthesis comes first, so what follows is
a payload for both. Such a line is read as the same instruction, or refused with the
same error, and so is a text made of such lines.
-/

namespace AbstractMachines

inductive CommonName : List Char → Prop where
  | operator {name : String} {op : Operator} (h : op.Named name) : CommonName name.toList
  | lit : CommonName "LIT".toList
  | jmp : CommonName "JMP".toList
  | jmc : CommonName "JMC".toList

inductive Corresponds : AM0.Instruction → AM1.Instruction → Prop where
  | operator (op : Operator) : Corresponds ⟨.operator op, 0⟩ (.operator op)
  | lit (n : Word) : Corresponds ⟨.lit, n⟩ (.lit n)
  | jmp (n : Word) : Corresponds ⟨.jmp, n⟩ (.jmp n)
  | jmc (n : Word) : Corresponds ⟨.jmc, n⟩ (.jmc n)

inductive ReadAlike {ε α β : Type} (R : α → β → Prop) : Except ε α → Except ε β → Prop where
  | ok {a : α} {b : β} (h : R a b) : ReadAlike R (.ok a) (.ok b)
  | error (e : ε) : ReadAlike R (.error e) (.error e)

theorem ReadAlike.map {ε α β γ δ : Type} {R : α → β → Prop} {S : γ → δ → Prop} {f : α → γ}
    {g : β → δ} {x : Except ε α} {y : Except ε β} (h : ReadAlike R x y)
    (hfg : ∀ a b, R a b → S (f a) (g b)) : ReadAlike S (x.map f) (y.map g) := by
  cases h with
  | ok h => exact .ok (hfg _ _ h)
  | error e => exact .error e

theorem CommonName.forms {name : List Char} (h : CommonName name) :
    ∃ (s : String) (zero : Word → AM0.Instruction) (one : Word → AM1.Instruction),
      s.toList = name ∧ AM0.Form s zero ∧ AM1.WordForm s one ∧ ∀ n, Corresponds (zero n) (one n) := by
  cases h with
  | @operator _ op h => exact ⟨_, _, _, rfl, .operator h, .operator h, fun _ => .operator op⟩
  | lit => exact ⟨_, _, _, rfl, .lit, .lit, .lit⟩
  | jmp => exact ⟨_, _, _, rfl, .jmp, .jmp, .jmp⟩
  | jmc => exact ⟨_, _, _, rfl, .jmc, .jmc, .jmc⟩

theorem parse_alike {line : List Char} (h : CommonName (line.takeWhile (· ≠ ' '))) :
    ReadAlike Corresponds (AM0.Instruction.parse line) (AM1.Instruction.parse line) := by
  obtain ⟨name, zero, one, hname, hzero, hone, hmake⟩ := h.forms
  rcases AM0.Instruction.line_of_name hname with hline | ⟨text, hline, -⟩
  · have hparse := hone.parse .absent
    rw [AM1.Operand.text, List.append_nil] at hparse
    rw [hline, hzero.parse_alone, hparse]
    exact .ok (hmake 0)
  · have hparse := hone.parse (.spaced text)
    rw [AM1.Operand.text, AM1.Operand.word] at hparse
    rw [hline, hzero.parse_spaced, hparse]
    have hsame : ReadAlike Eq (Word.parse text) (Word.parse text) := by
      cases Word.parse text with
      | ok n => exact .ok rfl
      | error e => exact .error e
    refine hsame.map fun n n' hn => ?_
    exact hn ▸ hmake n

theorem parse_common_error {line : List Char} (h : CommonName (line.takeWhile (· ≠ ' ')))
    {e : ParseError} (he : AM0.Instruction.parse line = .error e) :
    ∃ token, e = .invalidPayload token := by
  obtain ⟨name, zero, -, hname, hzero, -⟩ := h.forms
  exact ⟨_, AM0.Instruction.parse_invalid ⟨name, zero, hzero, hname⟩ he⟩

theorem parseLines_alike {ls : List (List Char)}
    (h : ∀ line ∈ ls, ¬Text.Blank line → CommonName (line.takeWhile (· ≠ ' '))) (n : Nat) :
    ReadAlike (List.Forall₂ Corresponds) (Program.parseLines n ls) (Program.parseLines n ls) := by
  induction ls generalizing n with
  | nil => exact .ok .nil
  | cons line rest ih =>
    obtain ⟨hline, hrest⟩ := List.forall_mem_cons.1 h
    by_cases hblank : Text.Blank line
    · rw [Program.parseLines_of_blank rest n hblank, Program.parseLines_of_blank rest n hblank]
      exact ih hrest (n + 1)
    have halike := parse_alike (hline hblank)
    generalize hzero : AM0.Instruction.parse line = x at halike
    generalize hone : AM1.Instruction.parse line = y at halike
    cases halike with
    | ok hcorr =>
      rw [Program.parseLines_of_ok rest n hblank hzero, Program.parseLines_of_ok rest n hblank hone]
      exact (ih hrest (n + 1)).map fun _ _ hcode => .cons hcorr hcode
    | error e =>
      rw [Program.parseLines_of_error rest n hblank hzero,
        Program.parseLines_of_error rest n hblank hone]
      exact .error _

/-- Both instruction sets read a line with a common name as corresponding instructions, or
both refuse its payload by the same text. A source whose lines are blank or have common
names is for both a program of corresponding instructions, or an error in the same line. -/
theorem common_language_is_read_alike :
    (∀ line : List Char, CommonName (line.takeWhile (· ≠ ' ')) →
      ReadAlike Corresponds (AM0.Instruction.parse line) (AM1.Instruction.parse line) ∧
      ∀ e, AM0.Instruction.parse line = .error e → ∃ token, e = .invalidPayload token) ∧
    ∀ source : List Char,
      (∀ line ∈ Text.lines source, ¬Text.Blank line → CommonName (line.takeWhile (· ≠ ' '))) →
      ReadAlike
        (fun (p : Program AM0.Instruction) (q : Program AM1.Instruction) =>
          List.Forall₂ Corresponds p.code.toList q.code.toList)
        (Program.parse source) (Program.parse source) := by
  refine ⟨fun line h => ⟨parse_alike h, fun e => parse_common_error h⟩, fun source h => ?_⟩
  exact (parseLines_alike h 1).map fun _ _ hcode => hcode

def commonLines : List Char := "LIT  +7 \n\r\nADD 5\nJMC".toList

def spacedGroup : List Char := "JMP (3)".toList

theorem commonLines_read_alike :
    AM1.Instruction.parse spacedGroup = .error (.invalidPayload "(3)") ∧
    ∃ q : Program AM1.Instruction, Program.parse commonLines = .ok q ∧
      List.Forall₂ Corresponds [⟨.lit, 7⟩, ⟨.operator .add, 0⟩, ⟨.jmc, 0⟩] q.code.toList := by
  obtain ⟨hlines, hsources⟩ := common_language_is_read_alike
  have hname : CommonName (spacedGroup.takeWhile (· ≠ ' ')) := .jmp
  have hnames : ∀ line ∈ Text.lines commonLines, ¬Text.Blank line →
      CommonName (line.takeWhile (· ≠ ' ')) := by
    have hlist : Text.lines commonLines =
        ["LIT  +7 ".toList, [], "ADD 5".toList, "JMC".toList] := rfl
    rw [hlist]
    simp only [List.forall_mem_cons]
    exact ⟨fun _ => .lit, fun hblank => absurd (by simp [Text.Blank]) hblank,
      fun _ => .operator .add, fun _ => .jmc, by simp⟩
  constructor
  · have hline := (hlines spacedGroup hname).1
    have hzero : AM0.Instruction.parse spacedGroup = .error (.invalidPayload "(3)") := rfl
    generalize hone : AM1.Instruction.parse spacedGroup = y at hline
    rw [hzero] at hline
    cases hline
    rfl
  · have hsource := hsources commonLines hnames
    have hzero : Program.parse (ι := AM0.Instruction) commonLines =
        .ok ⟨#[⟨.lit, 7⟩, ⟨.operator .add, 0⟩, ⟨.jmc, 0⟩]⟩ := rfl
    generalize hone : Program.parse (ι := AM1.Instruction) commonLines = y at hsource
    rw [hzero] at hsource
    cases hsource with
    | ok h => exact ⟨_, rfl, h⟩

end AbstractMachines
