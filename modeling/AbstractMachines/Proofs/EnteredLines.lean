import AbstractMachines.Proofs.Grammar
import AbstractMachines.Proofs.SourceLines
import AbstractMachines.Proofs.Typing
import Mathlib.Data.List.Forall2

/-!
# Lines of a program entered one at a time

A program is read from its lines as they stand, a line that is entered is trimmed
first. A line that spells an instruction begins with the mnemonic, so trimming takes
off blanks at its end only, and those belong to the padding of a payload or stand
behind a closing parenthesis. What is left spells the same instruction. The converse
fails: a blank behind a mnemonic that stands alone is a payload that is no word.
-/

namespace AbstractMachines

namespace Text

inductive Trailed (P : List Char → Prop) : List Char → Prop where
  | intro {stem after : List Char} (h : P stem) (hlast : ∀ c ∈ stem.getLast?, isBlank c = false)
      (ha : Blank after) : Trailed P (stem ++ after)

theorem Trailed.imp {P Q : List Char → Prop} {cs : List Char} (hPQ : ∀ stem, P stem → Q stem)
    (h : Trailed P cs) : Trailed Q cs := by
  cases h with
  | intro h hlast ha => exact .intro (hPQ _ h) hlast ha

theorem Trailed.cons {P : List Char → Prop} {cs : List Char} (c : Char)
    (h : Trailed (fun stem => P stem ∧ stem ≠ []) cs) :
    Trailed (fun stem => ∃ tail, stem = c :: tail ∧ P tail) (c :: cs) := by
  cases h with
  | @intro stem after h hlast ha =>
    obtain ⟨hstem, hne⟩ := h
    rw [← List.cons_append]
    refine .intro ⟨stem, rfl, hstem⟩ ?_ ha
    rwa [List.getLast?_cons_of_ne_nil hne]

theorem Tidy.trim_append {name : List Char} (hname : Tidy name) {P : List Char → Prop}
    {operand : List Char} (h : Trailed P operand) :
    ∃ stem, P stem ∧ trim (name ++ operand) = name ++ stem := by
  cases h with
  | @intro stem after h hlast ha =>
    have hhead : ∀ c ∈ (name ++ stem).head?, isBlank c = false := by
      rw [List.head?_append_of_ne_nil _ hname.nonempty]
      exact hname.head
    have hend : ∀ c ∈ (name ++ stem).getLast?, isBlank c = false := by
      by_cases hnil : stem = []
      · rw [hnil, List.append_nil]
        exact hname.last
      · rwa [List.getLast?_append_of_ne_nil _ hnil]
    refine ⟨stem, h, Trims.trim_eq ⟨?_, hhead, hend⟩⟩
    rw [← List.append_assoc]
    exact @Padded.intro _ [] (name ++ stem) after blank_nil rfl ha

theorem trailed_group {P : List Char → Prop} {text after : List Char}
    (h : P ('(' :: (text ++ [')']))) (ha : Blank after) : Trailed P ('(' :: (text ++ ')' :: after)) := by
  have hgroup : '(' :: (text ++ ')' :: after) = '(' :: (text ++ [')']) ++ after := by simp
  rw [hgroup]
  refine .intro h ?_ ha
  simp [List.getLast?_cons, isBlank]

end Text

namespace Word

theorem Numeral.ne_nil {cs : List Char} {i : Int} (h : Numeral cs i) : cs ≠ [] := by
  cases h with
  | unsigned h => exact h.spec.1
  | plus h => exact List.cons_ne_nil _ _
  | minus h => exact List.cons_ne_nil _ _

theorem Payload.trailed {text : List Char} {n : Word} (h : Payload text n) :
    Text.Trailed (fun stem => Payload stem n ∧ stem ≠ []) text := by
  cases h with
  | @intro before body after hb h ha =>
    have hstem : Payload (before ++ body) n := by
      rw [← List.append_nil (before ++ body)]
      exact .intro hb h Text.blank_nil
    refine .intro ⟨hstem, by simp [h.ne_nil]⟩ ?_ ha
    rw [List.getLast?_append_of_ne_nil _ h.ne_nil]
    intro c hc
    exact h.not_blank c (List.mem_of_mem_getLast? hc)

end Word

namespace AM0

theorem Form.tidy {name : String} {make : Word → Instruction} (h : Form name make) :
    Text.Tidy name.toList := by
  obtain ⟨o, rfl, -⟩ := h.exists_opcode
  exact Opcode.vocabulary.tidy o

theorem Instruction.spells_trim {line : List Char} {i : Instruction} (h : Spells line i) :
    Spells (Text.trim line) i := by
  cases h with
  | alone hf =>
    rw [hf.tidy.trim_eq]
    exact .alone hf
  | spaced hf h =>
    obtain ⟨stem, ⟨text, rfl, htext⟩, htrim⟩ := hf.tidy.trim_append (h.trailed.cons ' ')
    rw [htrim]
    exact .spaced hf htext

end AM0

namespace AM1

theorem WordForm.tidy {name : String} {make : Word → Instruction} (h : WordForm name make) :
    Text.Tidy name.toList := by
  obtain ⟨o, rfl, -⟩ := h.exists_opcode
  exact Opcode.vocabulary.tidy o

theorem AddressForm.tidy {name : String} {make : Address → Instruction} (h : AddressForm name make) :
    Text.Tidy name.toList := by
  obtain ⟨o, rfl, -⟩ := h.exists_opcode
  exact Opcode.vocabulary.tidy o

theorem WordText.trailed {cs : List Char} {n : Word} (h : WordText cs n) :
    Text.Trailed (WordText · n) cs := by
  cases h with
  | absent => exact @Text.Trailed.intro _ [] [] .absent (by simp) Text.blank_nil
  | spaced h =>
    refine (h.trailed.cons ' ').imp ?_
    intro stem hstem
    obtain ⟨text, rfl, htext⟩ := hstem
    exact .spaced htext
  | grouped h ha => exact Text.trailed_group (.grouped h Text.blank_nil) ha

theorem AddressText.trailed {cs : List Char} {a : Address} (h : AddressText cs a) :
    Text.Trailed (AddressText · a) cs := by
  cases h with
  | grouped hb hn ha => exact Text.trailed_group (.grouped hb hn Text.blank_nil) ha

theorem Instruction.spells_trim {line : List Char} {i : Instruction} (h : Spells line i) :
    Spells (Text.trim line) i := by
  cases h with
  | word hf h =>
    obtain ⟨stem, hstem, htrim⟩ := hf.tidy.trim_append h.trailed
    rw [htrim]
    exact .word hf hstem
  | address hf h =>
    obtain ⟨stem, hstem, htrim⟩ := hf.tidy.trim_append h.trailed
    rw [htrim]
    exact .address hf hstem

end AM1

theorem Kind.parse_trim (kind : Kind) {line : List Char} {i : kind.Instruction}
    (h : InstructionSet.parse line = .ok i) : InstructionSet.parse (Text.trim line) = .ok i := by
  cases kind with
  | am0 =>
    have hspells := AM0.Instruction.spells_trim (AM0.Instruction.parse_eq_ok_iff.1 h)
    exact AM0.Instruction.parse_eq_ok_iff.2 hspells
  | am1 =>
    have hspells := AM1.Instruction.spells_trim (AM1.Instruction.parse_eq_ok_iff.1 h)
    exact AM1.Instruction.parse_eq_ok_iff.2 hspells

def Session.Enters {ι : Type} [InstructionSet ι] (μ : Type) [Model μ ι] (line : List Char) (i : ι) :
    Prop :=
  ∀ {σ : Type} [Source σ] (m : μ) (s : σ),
    executeLine line m s =
      ⟨(execute i m s).outcome.mapError .runtime, (execute i m s).machine, (execute i m s).input⟩

theorem Kind.enters_of_parse (kind : Kind) {line : List Char} {i : kind.Instruction}
    (h : InstructionSet.parse line = .ok i) : Session.Enters kind.Machine line i := by
  intro σ _ m s
  exact Session.executeLine_of_parse (kind.parse_trim h) m s

namespace Program

variable {ι : Type} [InstructionSet ι]

theorem forall₂_of_parseLines {n : Nat} {ls : List (List Char)} {code : List ι}
    (h : parseLines n ls = .ok code) :
    List.Forall₂ (fun line i => InstructionSet.parse line = .ok i)
      (ls.filter fun line => Text.trim line ≠ []) code := by
  induction ls generalizing n code with
  | nil =>
    cases h
    exact .nil
  | cons line rest ih =>
    by_cases hblank : Text.Blank line
    · have hnil := Text.trim_eq_nil_iff.2 hblank
      rw [parseLines_of_blank rest n hblank] at h
      rw [List.filter_cons_of_neg (by simp [hnil])]
      exact ih h
    have hkept : Text.trim line ≠ [] := mt Text.trim_eq_nil_iff.1 hblank
    rw [List.filter_cons_of_pos (by simp [hkept])]
    cases hline : InstructionSet.parse (ι := ι) line with
    | error cause =>
      rw [parseLines_of_error rest n hblank hline] at h
      cases h
    | ok i =>
      rw [parseLines_of_ok rest n hblank hline] at h
      obtain ⟨code, hcode, rfl⟩ := map_eq_ok_iff.1 h
      exact .cons hline (ih hcode)

end Program

/-- A line that is read as an instruction is read as the same one after trimming, and so
entering it executes that instruction. The lines of a program that are not blank, entered
one by one, execute the instructions of the program. -/
theorem entered_lines_are_program_lines (kind : Kind) :
    (∀ (line : List Char) (i : kind.Instruction), InstructionSet.parse line = .ok i →
      InstructionSet.parse (Text.trim line) = .ok i ∧ Session.Enters kind.Machine line i) ∧
    ∀ (source : List Char) (p : Program kind.Instruction), Program.parse source = .ok p →
      List.Forall₂ (fun line i => InstructionSet.parse line = .ok i ∧ Session.Enters kind.Machine line i)
        ((Text.lines source).filter fun line => Text.trim line ≠ []) p.code.toList := by
  constructor
  · intro line i h
    exact ⟨kind.parse_trim h, kind.enters_of_parse h⟩
  · intro source p h
    obtain ⟨code, hcode, rfl⟩ := map_eq_ok_iff.1 h
    refine (Program.forall₂_of_parseLines hcode).imp ?_
    intro line i hline
    exact ⟨hline, kind.enters_of_parse hline⟩

def looseLine : List Char := "STORE( lokal ,\t+007 ) \u3000\r".toList

def looseSource : List Char := "LIT  7 \u2003\n \nLOADI(1)\t\r\nADD".toList

theorem looseSource_entered :
    AM1.Instruction.parse (Text.trim looseLine) = .ok (.direct .store ⟨.localBase, 7⟩) ∧
    Text.trim looseLine ≠ looseLine ∧
    Session.Enters AM1.Machine "LIT  7 \u2003".toList (AM1.Instruction.lit 7) ∧
    Session.Enters AM1.Machine "LOADI(1)\t".toList (AM1.Instruction.indirect .load 1) := by
  obtain ⟨hlines, hsources⟩ := entered_lines_are_program_lines .am1
  have hline : AM1.Instruction.parse looseLine = .ok (.direct .store ⟨.localBase, 7⟩) := rfl
  have hsource : Program.parse looseSource =
      .ok (⟨#[.lit 7, .indirect .load 1, .operator .add]⟩ : Program AM1.Instruction) := rfl
  have hentered := hsources looseSource _ hsource
  have hkept : ((Text.lines looseSource).filter fun line => Text.trim line ≠ []) =
      ["LIT  7 \u2003".toList, "LOADI(1)\t".toList, "ADD".toList] := rfl
  rw [hkept] at hentered
  refine ⟨(hlines looseLine _ hline).1, by decide +kernel, ?_, ?_⟩
  · cases hentered with
    | cons h _ => exact h.2
  · cases hentered with
    | cons _ hrest =>
      cases hrest with
      | cons h _ => exact h.2

-- Entering reads more lines than a program may have.
example : AM0.Instruction.parse "ADD ".toList = .error (.invalidPayload "") ∧
    AM0.Instruction.parse (Text.trim "ADD ".toList) = .ok ⟨.operator .add, 0⟩ := ⟨rfl, rfl⟩

end AbstractMachines
