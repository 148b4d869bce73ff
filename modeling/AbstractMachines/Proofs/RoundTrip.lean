import AbstractMachines.Proofs.Laws
import AbstractMachines.Proofs.Texts

/-!
# Programs and their text

An instruction is canonical if its text says all there is to it. For AM1 that is
every instruction, and for AM0 every one that has no payload beside an operator.
The text of a canonical instruction is a tidy line and is read back as the same
instruction; whatever is read, in any spelling, is canonical. Both carry over to
programs, one line for each instruction.
-/

namespace AbstractMachines

class LawfulInstructionSet (ι : Type) [InstructionSet ι] where
  Canonical : ι → Prop
  canonical_of_parse {line : List Char} {i : ι} : InstructionSet.parse line = .ok i → Canonical i
  parse_render {i : ι} : Canonical i → InstructionSet.parse (InstructionSet.render i).toList = .ok i
  tidy_render (i : ι) : Text.Tidy (InstructionSet.render i).toList

namespace AM0
namespace Opcode

theorem mem_all (o : Opcode) : o ∈ all := by
  cases o with
  | operator op => cases op <;> decide
  | access kind => cases kind <;> decide
  | lit => decide
  | jmp => decide
  | jmc => decide

theorem vocabulary : Text.Vocabulary mnemonic ofMnemonic? :=
  Text.vocabulary_of_all mem_all (by decide +kernel)

end Opcode

namespace Instruction

def Canonical (i : Instruction) : Prop := i.opcode.isOperator = true → i.payload = 0

theorem canonical_of_parse {line : List Char} {i : Instruction} (h : parse line = .ok i) :
    i.Canonical := by
  intro hop
  unfold parse at h
  simp only at h
  split at h
  · simp at h
  · split at h
    · cases h
      rfl
    · split at h
      · simp at h
      -- A number behind an operator is read, and dropped.
      · cases h
        simp_all [Opcode.hasPayload]

theorem toList_render (i : Instruction) : i.render.toList =
    if i.opcode.isOperator then i.opcode.mnemonic.toList
    else i.opcode.mnemonic.toList ++ ' ' :: i.payload.text.toList := by
  cases h : i.opcode.isOperator <;> simp [render, Opcode.hasPayload, h]

theorem parse_render {i : Instruction} (h : i.Canonical) : parse i.render.toList = .ok i := by
  have hspace := Opcode.vocabulary.not_mem i.opcode (c := ' ') rfl
  have hfind := Opcode.vocabulary.find_name i.opcode
  obtain ⟨opcode, payload⟩ := i
  rw [toList_render]
  cases hop : opcode.isOperator with
  | true =>
    obtain rfl : payload = 0 := h hop
    simp [parse, Text.splitOnce_of_not_mem hspace, hfind]
  | false =>
    simp [parse, Text.splitOnce_append hspace, hfind, Word.parse_text, Opcode.hasPayload, hop]

theorem tidy_render (i : Instruction) : Text.Tidy i.render.toList := by
  have hname := Opcode.vocabulary.tidy i.opcode
  rw [toList_render]
  split
  · exact hname
  · exact hname.spaced i.payload.tidy_text

end Instruction

instance : LawfulInstructionSet Instruction where
  Canonical := Instruction.Canonical
  canonical_of_parse := Instruction.canonical_of_parse
  parse_render := Instruction.parse_render
  tidy_render := Instruction.tidy_render

end AM0

namespace AM1
namespace Opcode

theorem mem_all (o : Opcode) : o ∈ all := by
  cases o with
  | operator op => cases op <;> decide
  | direct kind => cases kind <;> decide
  | indirect kind => cases kind <;> decide
  | _ => decide

theorem vocabulary : Text.Vocabulary mnemonic ofMnemonic? :=
  Text.vocabulary_of_all mem_all (by decide +kernel)

end Opcode

namespace Address

theorem toList_text (a : Address) :
    a.text.toList = a.base.text.toList ++ ',' :: a.offset.text.toList := by
  simp [text]

theorem base_not_blank (b : Base) : ∀ c ∈ b.text.toList, Text.isBlank c = false := by
  have h : b.text.toList.any Text.isBlank = false := by cases b <;> decide +kernel
  simpa using h

theorem text_not_blank (a : Address) : ∀ c ∈ a.text.toList, Text.isBlank c = false := by
  intro c hc
  rw [toList_text, List.mem_append, List.mem_cons] at hc
  rcases hc with hc | rfl | hc
  · exact base_not_blank a.base c hc
  · rfl
  · exact Word.text_not_blank hc

theorem parse_text (a : Address) : parse a.text.toList = .ok a := by
  obtain ⟨base, offset⟩ := a
  have hcomma : ',' ∉ base.text.toList := by cases base <;> decide +kernel
  have hbase : Text.Tidy base.text.toList :=
    Text.tidy_of_forall (by cases base <;> decide +kernel) (base_not_blank base)
  have hof : Base.ofText? base.text.toList = some base := by cases base <;> decide +kernel
  rw [toList_text]
  simp only [parse, Text.splitOnce_append hcomma, hbase.trim_eq, offset.tidy_text.trim_eq, hof,
    Word.ofText?_text]

end Address

namespace Operand

def text : Operand → List Char
  | absent => []
  | spaced text => ' ' :: text
  | grouped text => '(' :: text

theorem split_append {name : List Char} (h : ∀ c ∈ name, c.isUpper = true) (operand : Operand) :
    split (name ++ operand.text) = (name, operand) := by
  have hname : ∀ c ∈ name, (c == ' ' || c == '(') = false := by
    intro c hc
    have hup := h c hc
    simp only [Bool.or_eq_false_iff, beq_eq_false_iff_ne]
    constructor
    · rintro rfl
      simp at hup
    · rintro rfl
      simp at hup
  cases operand with
  | absent => simp [split, text, Text.splitFirst_of_forall hname]
  | spaced t => simp [split, text, Text.splitFirst_append hname]
  | grouped t => simp [split, text, Text.splitFirst_append hname]

theorem ungroup_append (inside : List Char) : ungroup (inside ++ [')']) = .ok inside := by
  have htrim : Text.trimEnd (inside ++ [')']) = inside ++ [')'] :=
    Text.trimEnd_of_last (by simp [Text.isBlank])
  simp [ungroup, htrim]

end Operand

namespace Instruction

def operand : Instruction → Operand
  | operator _ | push => .absent
  | direct _ a | loada a => .grouped (a.text.toList ++ [')'])
  | indirect _ o => .grouped (o.text.toList ++ [')'])
  | lit n | jmp n | jmc n | call n | init n | ret n => .spaced n.text.toList

theorem toList_render (i : Instruction) :
    i.render.toList = i.opcode.mnemonic.toList ++ i.operand.text := by
  cases i <;> simp [render, mnemonic, operand, Operand.text]

theorem build_operand (i : Instruction) : build i.opcode i.operand = .ok i := by
  cases i with
  | operator op => rfl
  | push => rfl
  | direct kind a =>
    simp [build, opcode, operand, Operand.address, Operand.ungroup_append, Address.parse_text,
      Except.map]
  | loada a =>
    simp [build, opcode, operand, Operand.address, Operand.ungroup_append, Address.parse_text,
      Except.map]
  | indirect kind o =>
    simp [build, opcode, operand, Operand.word, Operand.ungroup_append, Word.parse_text, Except.map]
  | _ => simp [build, opcode, operand, Operand.word, Word.parse_text, Except.map]

theorem parse_mnemonic (o : Opcode) (operand : Operand) :
    parse (o.mnemonic.toList ++ operand.text) = build o operand := by
  rw [parse, Operand.split_append (Opcode.vocabulary.isUpper o)]
  simp only [Opcode.vocabulary.find_name]

theorem parse_render (i : Instruction) : parse i.render.toList = .ok i := by
  rw [toList_render, parse_mnemonic, build_operand]

theorem tidy_grouped (o : Opcode) {inside : List Char}
    (h : ∀ c ∈ inside, Text.isBlank c = false) :
    Text.Tidy (o.mnemonic.toList ++ '(' :: (inside ++ [')'])) := by
  apply Text.tidy_of_forall
  · simp
  · intro c hc
    simp only [List.mem_append, List.mem_cons, List.not_mem_nil, or_false] at hc
    rcases hc with hc | rfl | hc | rfl
    · exact Text.isBlank_of_isUpper (Opcode.vocabulary.isUpper o c hc)
    · rfl
    · exact h c hc
    · rfl

theorem tidy_render (i : Instruction) : Text.Tidy i.render.toList := by
  have hname := Opcode.vocabulary.tidy i.opcode
  rw [toList_render]
  cases i with
  | operator op => simpa [operand, Operand.text] using hname
  | push => simpa [operand, Operand.text] using hname
  | direct kind a => exact tidy_grouped _ a.text_not_blank
  | loada a => exact tidy_grouped _ a.text_not_blank
  | indirect kind o => exact tidy_grouped _ fun c hc => Word.text_not_blank hc
  | lit n | jmp n | jmc n | call n | init n | ret n => exact hname.spaced n.tidy_text

end Instruction

instance : LawfulInstructionSet Instruction where
  Canonical _ := True
  canonical_of_parse _ := trivial
  parse_render {i} _ := i.parse_render
  tidy_render := Instruction.tidy_render

end AM1

instance (kind : Kind) : LawfulInstructionSet kind.Instruction :=
  match kind with
  | .am0 => inferInstanceAs (LawfulInstructionSet AM0.Instruction)
  | .am1 => inferInstanceAs (LawfulInstructionSet AM1.Instruction)

namespace Program

variable {ι : Type} [InstructionSet ι] [LawfulInstructionSet ι]

def Canonical (p : Program ι) : Prop := ∀ i ∈ p.code, LawfulInstructionSet.Canonical i

theorem canonical_of_parseLines {lines : List (List Char)} {n : Nat} {code : List ι}
    (h : parseLines n lines = .ok code) : ∀ i ∈ code, LawfulInstructionSet.Canonical i := by
  induction lines generalizing n code with
  | nil =>
    cases h
    simp
  | cons line rest ih =>
    rw [parseLines] at h
    split at h
    · exact ih h
    · cases hp : InstructionSet.parse (ι := ι) line with
      | error e => simp [hp] at h
      | ok i =>
        rw [hp] at h
        obtain ⟨others, hr, rfl⟩ := map_eq_ok_iff.1 h
        exact List.forall_mem_cons.2 ⟨LawfulInstructionSet.canonical_of_parse hp, ih hr⟩

theorem canonical_of_parse {source : List Char} {p : Program ι} (h : parse source = .ok p) :
    p.Canonical := by
  obtain ⟨code, hp, rfl⟩ := map_eq_ok_iff.1 h
  intro i hi
  exact canonical_of_parseLines hp i (by simpa using hi)

theorem parseLines_render {code : List ι} (h : ∀ i ∈ code, LawfulInstructionSet.Canonical i)
    (n : Nat) :
    parseLines n (Text.lines
      (String.join (code.map fun i => InstructionSet.render i ++ "\n")).toList) = .ok code := by
  induction code generalizing n with
  | nil => rfl
  | cons i rest ih =>
    obtain ⟨hi, hrest⟩ := List.forall_mem_cons.1 h
    have htidy := LawfulInstructionSet.tidy_render i
    have htext : (String.join ((i :: rest).map fun i => InstructionSet.render i ++ "\n")).toList =
        (InstructionSet.render i).toList ++ '\n' ::
          (String.join (rest.map fun i => InstructionSet.render i ++ "\n")).toList := by
      simp
    rw [htext, htidy.lines_eq, parseLines, htidy.trim_eq, if_neg htidy.nonempty,
      LawfulInstructionSet.parse_render hi]
    simp only [ih hrest, Except.map]

theorem parse_render {p : Program ι} (h : p.Canonical) : parse p.render.toList = .ok p := by
  have hcode : ∀ i ∈ p.code.toList, LawfulInstructionSet.Canonical i := by
    intro i hi
    exact h i (by simpa using hi)
  rw [parse, render, parseLines_render hcode]
  rfl

end Program

/-- A program is read back from its text, and the text of a program that was read
from any source reads as that program. -/
theorem program_text_round_trips :
    (∀ p : Program AM1.Instruction, Program.parse p.render.toList = .ok p) ∧
    (∀ p : Program AM0.Instruction,
      (∀ i ∈ p.code, i.opcode.isOperator = true → i.payload = 0) →
        Program.parse p.render.toList = .ok p) ∧
    ∀ (kind : Kind) (source : List Char) (p : Program kind.Instruction),
      Program.parse source = .ok p → Program.parse p.render.toList = .ok p := by
  refine ⟨fun p => ?_, fun p hp => ?_, fun kind source p hp => ?_⟩
  · exact Program.parse_render fun i _ => trivial
  · exact Program.parse_render hp
  · exact Program.parse_render (Program.canonical_of_parse hp)

def spellings : List Char :=
  "LOAD( lokal , +007 )\r\n\n \t\nADD 5\nLIT(-9223372036854775808)".toList

def comparison : Program AM0.Instruction := ⟨#[⟨.lit, -3⟩, ⟨.operator .ge, 0⟩]⟩

theorem spellings_round_trip :
    ∃ p : Program AM1.Instruction, Program.parse spellings = .ok p ∧
      p.render = "LOAD(local,7)\nADD\nLIT -9223372036854775808\n" ∧
      Program.parse p.render.toList = .ok p ∧
      Program.parse comparison.render.toList = .ok comparison := by
  obtain ⟨-, ham0, hread⟩ := program_text_round_trips
  have hp : Program.parse spellings =
      .ok (⟨#[.direct .load ⟨.localBase, 7⟩, .operator .add, .lit (-9223372036854775808)]⟩ :
        Program AM1.Instruction) := rfl
  exact ⟨_, hp, rfl, hread .am1 spellings _ hp, ham0 comparison (by decide)⟩

end AbstractMachines
