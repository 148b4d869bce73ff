import AbstractMachines.Proofs.Numerals
import AbstractMachines.Proofs.RoundTrip

/-!
# The grammar of instruction lines

The lines that are read as instructions, given by rules and without reference to how a
line is split or trimmed. Reading accepts exactly these lines. Of the others, a line
whose first word is no mnemonic is reported by that word, whatever follows, and every
other one by the text of its operand.
-/

namespace AbstractMachines
namespace Text

theorem splitFirst_fst {p q : Char → Bool} (hq : ∀ c, q c = !p c) (cs : List Char) :
    (splitFirst p cs).1 = cs.takeWhile q := by
  induction cs with
  | nil => rfl
  | cons c cs ih => cases h : p c <;> simp [splitFirst, hq, h, ih]

theorem dropWhile_cases (p : Char → Bool) (cs : List Char) :
    cs.dropWhile p = [] ∨ ∃ d rest, cs.dropWhile p = d :: rest ∧ p d = false := by
  cases h : cs.dropWhile p with
  | nil => exact .inl rfl
  | cons d rest => exact .inr ⟨d, rest, rfl, head_dropWhile d (by rw [h]; rfl)⟩

theorem eq_of_splitOnce {d : Char} {cs front rest : List Char}
    (h : splitOnce d cs = (front, some rest)) : cs = front ++ d :: rest := by
  by_cases hd : d ∈ cs
  · obtain ⟨front', rest', rfl, hfront⟩ := List.eq_append_cons_of_mem hd
    rw [splitOnce_append hfront] at h
    cases h
    rfl
  · rw [splitOnce_of_not_mem hd] at h
    cases h

end Text

/-- Each answer is given on exactly the lines it is meant for, if lines that spell an
instruction are read, a line without a known name is reported by its name, and any other
line that is refused by its operand. -/
theorem answers_iff {ι : Type} {answer : Except ParseError ι} {Spells : ι → Prop}
    {Known : Prop} {name : String} {Blamed : String → Prop}
    (hread : ∀ i, answer = .ok i ↔ Spells i)
    (hunknown : ¬Known → answer = .error (.unknownInstruction name))
    (hinvalid : Known → ∀ e, answer = .error e → ∃ token, Blamed token ∧ e = .invalidPayload token)
    (hunique : ∀ s t, Blamed s → Blamed t → s = t) :
    (∀ token, answer = .error (.unknownInstruction token) ↔ ¬Known ∧ token = name) ∧
    ∀ token, answer = .error (.invalidPayload token) ↔
      Known ∧ (¬∃ i, Spells i) ∧ Blamed token := by
  by_cases hknown : Known
  · have hnever (token : String) : answer ≠ .error (.unknownInstruction token) := by
      intro h
      obtain ⟨t, -, he⟩ := hinvalid hknown _ h
      cases he
    refine ⟨fun token => by simp [hknown, hnever token], fun token => ⟨fun h => ?_, fun h => ?_⟩⟩
    · have hnone : ¬∃ i, Spells i := by
        intro hsome
        obtain ⟨i, hi⟩ := hsome
        rw [(hread i).2 hi] at h
        cases h
      obtain ⟨t, ht, he⟩ := hinvalid hknown _ h
      cases he
      exact ⟨hknown, hnone, ht⟩
    · obtain ⟨-, hnone, htoken⟩ := h
      cases ha : answer with
      | ok i => exact absurd ⟨i, (hread i).1 ha⟩ hnone
      | error e =>
        obtain ⟨t, ht, rfl⟩ := hinvalid hknown e ha
        rw [hunique _ _ ht htoken]
  · rw [hunknown hknown]
    simp [hknown, eq_comm]

inductive Operator.Named : Operator → String → Prop where
  | add : add.Named "ADD"
  | mul : mul.Named "MUL"
  | sub : sub.Named "SUB"
  | div : div.Named "DIV"
  | mod : mod.Named "MOD"
  | eq : eq.Named "EQ"
  | ne : ne.Named "NE"
  | lt : lt.Named "LT"
  | gt : gt.Named "GT"
  | le : le.Named "LE"
  | ge : ge.Named "GE"

theorem Operator.named_iff {op : Operator} {name : String} : op.Named name ↔ op.mnemonic = name := by
  constructor
  · intro h
    cases h <;> rfl
  · rintro rfl
    cases op <;> constructor

namespace AM0

/-- The mnemonics, with the instruction made of a payload. Operators do not keep it. -/
inductive Form : String → (Word → Instruction) → Prop where
  | operator {name : String} {op : Operator} (h : op.Named name) :
      Form name fun _ => ⟨.operator op, 0⟩
  | load : Form "LOAD" fun n => ⟨.access .load, n⟩
  | store : Form "STORE" fun n => ⟨.access .store, n⟩
  | lit : Form "LIT" fun n => ⟨.lit, n⟩
  | jmp : Form "JMP" fun n => ⟨.jmp, n⟩
  | jmc : Form "JMC" fun n => ⟨.jmc, n⟩
  | write : Form "WRITE" fun n => ⟨.access .write, n⟩
  | read : Form "READ" fun n => ⟨.access .read, n⟩

def Known (name : List Char) : Prop := ∃ s make, Form s make ∧ s.toList = name

inductive Instruction.Spells : List Char → Instruction → Prop where
  | alone {name : String} {make : Word → Instruction} (hf : Form name make) :
      Spells name.toList (make 0)
  | spaced {name : String} {make : Word → Instruction} {text : List Char} {n : Word}
      (hf : Form name make) (h : Word.Payload text n) : Spells (name.toList ++ ' ' :: text) (make n)

theorem known_mnemonic (o : Opcode) : Known o.mnemonic.toList := by
  cases o with
  | operator op => exact ⟨_, _, .operator (Operator.named_iff.2 rfl), rfl⟩
  | access kind =>
    cases kind with
    | load => exact ⟨_, _, .load, rfl⟩
    | store => exact ⟨_, _, .store, rfl⟩
    | write => exact ⟨_, _, .write, rfl⟩
    | read => exact ⟨_, _, .read, rfl⟩
  | lit => exact ⟨_, _, .lit, rfl⟩
  | jmp => exact ⟨_, _, .jmp, rfl⟩
  | jmc => exact ⟨_, _, .jmc, rfl⟩

namespace Form

variable {name : String} {make : Word → Instruction}

theorem exists_opcode (h : Form name make) :
    ∃ o : Opcode, o.mnemonic = name ∧ ∀ n, make n = ⟨o, if o.hasPayload then n else 0⟩ := by
  cases h with
  | @operator _ op h => exact ⟨.operator op, Operator.named_iff.1 h, fun _ => rfl⟩
  | load => exact ⟨.access .load, rfl, fun _ => rfl⟩
  | store => exact ⟨.access .store, rfl, fun _ => rfl⟩
  | lit => exact ⟨.lit, rfl, fun _ => rfl⟩
  | jmp => exact ⟨.jmp, rfl, fun _ => rfl⟩
  | jmc => exact ⟨.jmc, rfl, fun _ => rfl⟩
  | write => exact ⟨.access .write, rfl, fun _ => rfl⟩
  | read => exact ⟨.access .read, rfl, fun _ => rfl⟩

theorem parse_alone (h : Form name make) : Instruction.parse name.toList = .ok (make 0) := by
  obtain ⟨o, rfl, hmake⟩ := h.exists_opcode
  have hspace := Opcode.vocabulary.not_mem o (c := ' ') rfl
  simp only [Instruction.parse, Text.splitOnce_of_not_mem hspace, Opcode.vocabulary.find_name, hmake,
    ite_self]

theorem parse_spaced (h : Form name make) (text : List Char) :
    Instruction.parse (name.toList ++ ' ' :: text) = (Word.parse text).map make := by
  obtain ⟨o, rfl, hmake⟩ := h.exists_opcode
  have hspace := Opcode.vocabulary.not_mem o (c := ' ') rfl
  simp only [Instruction.parse, Text.splitOnce_append hspace, Opcode.vocabulary.find_name]
  cases Word.parse text with
  | error e => rfl
  | ok n => rw [Except.map, hmake]

end Form

namespace Instruction

theorem parse_unknown {line : List Char} (h : ¬Known (line.takeWhile (· ≠ ' '))) :
    parse line = .error (.unknownInstruction (String.ofList (line.takeWhile (· ≠ ' ')))) := by
  have hname : (Text.splitOnce ' ' line).1 = line.takeWhile (· ≠ ' ') :=
    Text.splitFirst_fst (fun c => decide_not) line
  have hnone : Opcode.ofMnemonic? (line.takeWhile (· ≠ ' ')) = none := by
    cases ho : Opcode.ofMnemonic? (line.takeWhile (· ≠ ' ')) with
    | none => rfl
    | some o =>
      have hmnemonic := (Opcode.vocabulary.find_eq_some_iff fun _ => rfl).1 ho
      exact absurd (hmnemonic ▸ known_mnemonic o) h
  simp only [parse, hname, hnone]

theorem line_of_name {line : List Char} {name : String}
    (h : name.toList = line.takeWhile (· ≠ ' ')) :
    line = name.toList ∨ ∃ text, line = name.toList ++ ' ' :: text ∧
      (line.dropWhile (· ≠ ' ')).tail = text := by
  have hline : line = name.toList ++ line.dropWhile (· ≠ ' ') := by
    rw [h, List.takeWhile_append_dropWhile]
  rcases Text.dropWhile_cases (· ≠ ' ') line with hrest | ⟨d, text, hrest, hd⟩
  · rw [hrest, List.append_nil] at hline
    exact .inl hline
  · obtain rfl : d = ' ' := by simpa using hd
    rw [hrest] at hline
    exact .inr ⟨text, hline, by rw [hrest, List.tail_cons]⟩

theorem parse_eq_ok_iff {line : List Char} {i : Instruction} : parse line = .ok i ↔ Spells line i := by
  constructor
  · intro h
    by_cases hknown : Known (line.takeWhile (· ≠ ' '))
    · obtain ⟨name, make, hf, hname⟩ := hknown
      rcases line_of_name hname with rfl | ⟨text, rfl, -⟩
      · rw [hf.parse_alone] at h
        cases h
        exact .alone hf
      · rw [hf.parse_spaced] at h
        obtain ⟨n, hn, rfl⟩ := map_eq_ok_iff.1 h
        exact .spaced hf (Word.parse_eq_ok_iff.1 hn)
    · rw [parse_unknown hknown] at h
      cases h
  · intro h
    cases h with
    | alone hf => exact hf.parse_alone
    | spaced hf h =>
      rw [hf.parse_spaced, Word.parse_eq_ok_iff.2 h]
      rfl

theorem parse_invalid {line : List Char} {e : ParseError} (hknown : Known (line.takeWhile (· ≠ ' ')))
    (h : parse line = .error e) :
    e = .invalidPayload (String.ofList (line.dropWhile (· ≠ ' ')).tail) := by
  obtain ⟨name, make, hf, hname⟩ := hknown
  rcases line_of_name hname with rfl | ⟨text, hline, htext⟩
  · rw [hf.parse_alone] at h
    cases h
  · rw [htext]
    subst hline
    rw [hf.parse_spaced] at h
    exact Word.parse_eq_error (map_eq_error_iff.1 h)

end Instruction

/-- A line is read as an instruction if the grammar has it, and every other line is
refused: by its first word if that is no mnemonic, else by all that follows the first
space. -/
theorem payload_grammar_is_exact (line : List Char) :
    (∀ i, Instruction.parse line = .ok i ↔ Instruction.Spells line i) ∧
    (∀ token, Instruction.parse line = .error (.unknownInstruction token) ↔
      ¬Known (line.takeWhile (· ≠ ' ')) ∧ token = String.ofList (line.takeWhile (· ≠ ' '))) ∧
    ∀ token, Instruction.parse line = .error (.invalidPayload token) ↔
      Known (line.takeWhile (· ≠ ' ')) ∧ (¬∃ i, Instruction.Spells line i) ∧
        token = String.ofList (line.dropWhile (· ≠ ' ')).tail := by
  refine ⟨fun i => Instruction.parse_eq_ok_iff,
    answers_iff (fun i => Instruction.parse_eq_ok_iff) Instruction.parse_unknown ?_ ?_⟩
  · intro hknown e he
    exact ⟨_, rfl, Instruction.parse_invalid hknown he⟩
  · intro s t hs ht
    rw [hs, ht]

example : Instruction.parse "LIT \u2003-9223372036854775808 ".toList =
    .ok ⟨.lit, -9223372036854775808⟩ := rfl

example : Instruction.parse "ADD  9223372036854775808".toList =
    .error (.invalidPayload " 9223372036854775808") := rfl

end AM0

namespace AM1

namespace Base

inductive Spelled : Base → List Char → Prop where
  | ofGlobal : Spelled globalBase "global".toList
  | ofLocal : Spelled localBase "local".toList
  | ofLokal : Spelled localBase "lokal".toList

theorem ofText?_eq_some_iff {cs : List Char} {b : Base} : ofText? cs = some b ↔ Spelled b cs := by
  constructor
  · intro h
    unfold ofText? at h
    split at h
    · next hglobal =>
      cases h
      exact hglobal ▸ .ofGlobal
    split at h
    · next hlocal =>
      cases h
      rcases hlocal with rfl | rfl
      · exact .ofLocal
      · exact .ofLokal
    · cases h
  · intro h
    cases h <;> rfl

theorem Spelled.not_blank {b : Base} {cs : List Char} (h : Spelled b cs) :
    ∀ c ∈ cs, Text.isBlank c = false := by
  cases h <;> simp [Text.isBlank]

theorem comma_not_mem {b : Base} {cs : List Char} (h : Text.Padded b.Spelled cs) : ',' ∉ cs := by
  obtain ⟨hb, h, ha⟩ := h
  have hblank {cs : List Char} (hcs : Text.Blank cs) : ',' ∉ cs := by
    intro hmem
    simpa [Text.isBlank] using hcs _ hmem
  have hname : ∀ cs, Spelled b cs → ',' ∉ cs := by
    intro cs h
    cases h <;> simp
  simp [hblank hb, hblank ha, hname _ h]

end Base

/-- The mnemonics that take a word, with the instruction made of it. Operators and
PUSH do not use it. -/
inductive WordForm : String → (Word → Instruction) → Prop where
  | operator {name : String} {op : Operator} (h : op.Named name) :
      WordForm name fun _ => .operator op
  | push : WordForm "PUSH" fun _ => .push
  | lit : WordForm "LIT" .lit
  | jmp : WordForm "JMP" .jmp
  | jmc : WordForm "JMC" .jmc
  | call : WordForm "CALL" .call
  | init : WordForm "INIT" .init
  | ret : WordForm "RET" .ret
  | loadi : WordForm "LOADI" (.indirect .load)
  | storei : WordForm "STOREI" (.indirect .store)
  | writei : WordForm "WRITEI" (.indirect .write)
  | readi : WordForm "READI" (.indirect .read)

inductive AddressForm : String → (Address → Instruction) → Prop where
  | load : AddressForm "LOAD" (.direct .load)
  | store : AddressForm "STORE" (.direct .store)
  | write : AddressForm "WRITE" (.direct .write)
  | read : AddressForm "READ" (.direct .read)
  | loada : AddressForm "LOADA" .loada

def Known (name : List Char) : Prop :=
  (∃ s make, WordForm s make ∧ s.toList = name) ∨ ∃ s make, AddressForm s make ∧ s.toList = name

inductive WordText : List Char → Word → Prop where
  | absent : WordText [] 0
  | spaced {text : List Char} {n : Word} (h : Word.Payload text n) : WordText (' ' :: text) n
  | grouped {text after : List Char} {n : Word} (h : Word.Payload text n) (ha : Text.Blank after) :
      WordText ('(' :: (text ++ ')' :: after)) n

theorem WordText.operand {cs : List Char} {n : Word} (h : WordText cs n) :
    ∃ operand : Operand, operand.text = cs := by
  cases h with
  | absent => exact ⟨.absent, rfl⟩
  | spaced => exact ⟨.spaced _, rfl⟩
  | grouped => exact ⟨.grouped _, rfl⟩

inductive AddressText : List Char → Address → Prop where
  | grouped {base offset after : List Char} {b : Base} {n : Word}
      (hb : Text.Padded b.Spelled base) (hn : Word.Payload offset n) (ha : Text.Blank after) :
      AddressText ('(' :: (base ++ ',' :: offset ++ ')' :: after)) ⟨b, n⟩

theorem AddressText.operand {cs : List Char} {a : Address} (h : AddressText cs a) :
    ∃ operand : Operand, operand.text = cs := by
  cases h with
  | grouped => exact ⟨.grouped _, rfl⟩

inductive Instruction.Spells : List Char → Instruction → Prop where
  | word {name : String} {make : Word → Instruction} {operand : List Char} {n : Word}
      (hf : WordForm name make) (h : WordText operand n) : Spells (name.toList ++ operand) (make n)
  | address {name : String} {make : Address → Instruction} {operand : List Char} {a : Address}
      (hf : AddressForm name make) (h : AddressText operand a) :
      Spells (name.toList ++ operand) (make a)

/-- The part of a refused operand that is reported: all that follows the space, or the
inside of a group, or all that follows the parenthesis if the group is not closed. -/
inductive Blamed : List Char → List Char → Prop where
  | absent : Blamed [] []
  | spaced (text : List Char) : Blamed (' ' :: text) text
  | closed (inside : List Char) {after : List Char} (h : Text.Blank after) :
      Blamed ('(' :: (inside ++ ')' :: after)) inside
  | unclosed {text : List Char} (h : ∀ inside after, Text.Blank after → text ≠ inside ++ ')' :: after) :
      Blamed ('(' :: text) text

namespace Address

theorem parse_eq_ok_iff {cs : List Char} {a : Address} :
    parse cs = .ok a ↔ ∃ base offset, cs = base ++ ',' :: offset ∧
      Text.Padded a.base.Spelled base ∧ Word.Payload offset a.offset := by
  have hbase {text : List Char} : Text.Padded a.base.Spelled text ↔
      Base.ofText? (Text.trim text) = some a.base :=
    (Text.padded_iff fun _ h => h.not_blank).trans Base.ofText?_eq_some_iff.symm
  constructor
  · intro h
    unfold parse at h
    simp only at h
    split at h
    · cases h
    · next base offset hsplit =>
      split at h
      · next b o hb ho =>
        cases h
        exact ⟨base, offset, Text.eq_of_splitOnce hsplit, hbase.2 hb, Word.payload_iff.2 ho⟩
      · cases h
  · intro h
    obtain ⟨base, offset, rfl, hb, hn⟩ := h
    simp only [parse, Text.splitOnce_append (Base.comma_not_mem hb), hbase.1 hb,
      Word.payload_iff.1 hn]

theorem parse_eq_error {cs : List Char} {e : ParseError} (h : parse cs = .error e) :
    e = .invalidPayload (String.ofList cs) := by
  unfold parse at h
  simp only at h
  split at h
  · cases h
    rfl
  · split at h
    · cases h
    · cases h
      rfl

end Address

namespace Operand

theorem exists_text (line : List Char) :
    ∃ operand : Operand, operand.text = line.dropWhile (· ∉ [' ', '(']) := by
  rcases Text.dropWhile_cases (· ∉ [' ', '(']) line with hrest | ⟨d, text, hrest, hd⟩
  · exact ⟨.absent, hrest.symm⟩
  · have hmark : d ∈ [' ', '('] := by
      by_contra hne
      simp [hne] at hd
    rcases List.mem_pair.1 hmark with rfl | rfl
    · exact ⟨.spaced text, hrest.symm⟩
    · exact ⟨.grouped text, hrest.symm⟩

theorem ungroup_eq_ok_iff {text inside : List Char} :
    ungroup text = .ok inside ↔ ∃ after, Text.Blank after ∧ text = inside ++ ')' :: after := by
  constructor
  · intro h
    unfold ungroup at h
    simp only at h
    split at h
    · next hlast =>
      cases h
      obtain ⟨inside, hinside⟩ := List.getLast?_eq_some_iff.1 hlast
      obtain ⟨after, hafter, htext⟩ := Text.exists_trimEnd text
      refine ⟨after, hafter, ?_⟩
      rw [hinside] at htext ⊢
      simpa using htext
    · cases h
  · intro h
    obtain ⟨after, hafter, rfl⟩ := h
    have htrim : Text.trimEnd (inside ++ ')' :: after) = inside ++ [')'] := by
      rw [List.append_cons, Text.trimEnd_append hafter]
      exact Text.trimEnd_of_last (by simp [Text.isBlank])
    simp [ungroup, htrim]

theorem ungroup_eq_error {text : List Char} {e : ParseError} (h : ungroup text = .error e) :
    e = .invalidPayload (String.ofList text) := by
  unfold ungroup at h
  simp only at h
  split at h
  · cases h
  · cases h
    rfl

section Group

variable {α : Type} {read : List Char → Except ParseError α} {text : List Char}

theorem bind_ungroup_eq_ok_iff {a : α} :
    (ungroup text).bind read = .ok a ↔
      ∃ inside after, Text.Blank after ∧ text = inside ++ ')' :: after ∧ read inside = .ok a := by
  constructor
  · intro h
    cases hg : ungroup text with
    | error e =>
      rw [hg] at h
      cases h
    | ok inside =>
      rw [hg] at h
      obtain ⟨after, hafter, htext⟩ := ungroup_eq_ok_iff.1 hg
      exact ⟨inside, after, hafter, htext, h⟩
  · intro h
    obtain ⟨inside, after, hafter, htext, h⟩ := h
    rw [ungroup_eq_ok_iff.2 ⟨after, hafter, htext⟩]
    exact h

theorem bind_ungroup_eq_error
    (hread : ∀ cs e, read cs = .error e → e = .invalidPayload (String.ofList cs))
    {e : ParseError} (h : (ungroup text).bind read = .error e) :
    ∃ token, Blamed ('(' :: text) token ∧ e = .invalidPayload (String.ofList token) := by
  cases hg : ungroup text with
  | error e' =>
    rw [hg] at h
    cases h
    refine ⟨text, .unclosed ?_, ungroup_eq_error hg⟩
    intro inside after hafter htext
    rw [ungroup_eq_ok_iff.2 ⟨after, hafter, htext⟩] at hg
    cases hg
  | ok inside =>
    rw [hg] at h
    obtain ⟨after, hafter, rfl⟩ := ungroup_eq_ok_iff.1 hg
    exact ⟨inside, .closed inside hafter, hread inside e h⟩

end Group

theorem word_grouped (text : List Char) : (grouped text).word = (ungroup text).bind Word.parse := by
  rw [word, Except.bind.eq_def]
  cases ungroup text <;> rfl

theorem address_grouped (text : List Char) :
    (grouped text).address = (ungroup text).bind Address.parse := by
  rw [address, Except.bind.eq_def]
  cases ungroup text <;> rfl

theorem word_eq_ok_iff {operand : Operand} {n : Word} :
    operand.word = .ok n ↔ WordText operand.text n := by
  cases operand with
  | absent =>
    constructor
    · intro h
      cases h
      exact .absent
    · intro h
      cases h
      rfl
  | spaced text =>
    constructor
    · intro h
      exact .spaced (Word.parse_eq_ok_iff.1 h)
    · intro h
      cases h with
      | spaced h => exact Word.parse_eq_ok_iff.2 h
  | grouped text =>
    rw [word_grouped, bind_ungroup_eq_ok_iff]
    constructor
    · intro h
      obtain ⟨inside, after, hafter, rfl, h⟩ := h
      exact .grouped (Word.parse_eq_ok_iff.1 h) hafter
    · intro h
      cases h with
      | grouped h ha => exact ⟨_, _, ha, rfl, Word.parse_eq_ok_iff.2 h⟩

theorem address_eq_ok_iff {operand : Operand} {a : Address} :
    operand.address = .ok a ↔ AddressText operand.text a := by
  cases operand with
  | absent =>
    constructor
    · intro h
      cases h
    · intro h
      cases h
  | spaced text =>
    constructor
    · intro h
      cases h
    · intro h
      cases h
  | grouped text =>
    rw [address_grouped, bind_ungroup_eq_ok_iff]
    constructor
    · intro h
      obtain ⟨inside, after, hafter, rfl, h⟩ := h
      obtain ⟨base, offset, rfl, hb, hn⟩ := Address.parse_eq_ok_iff.1 h
      exact .grouped hb hn hafter
    · intro h
      cases h with
      | grouped hb hn ha => exact ⟨_, _, ha, rfl, Address.parse_eq_ok_iff.2 ⟨_, _, rfl, hb, hn⟩⟩

theorem word_eq_error {operand : Operand} {e : ParseError} (h : operand.word = .error e) :
    ∃ token, Blamed operand.text token ∧ e = .invalidPayload (String.ofList token) := by
  cases operand with
  | absent => cases h
  | spaced text => exact ⟨text, .spaced text, Word.parse_eq_error h⟩
  | grouped text =>
    rw [word_grouped] at h
    exact bind_ungroup_eq_error (fun _ _ => Word.parse_eq_error) h

theorem address_eq_error {operand : Operand} {e : ParseError} (h : operand.address = .error e) :
    ∃ token, Blamed operand.text token ∧ e = .invalidPayload (String.ofList token) := by
  cases operand with
  | absent =>
    cases h
    exact ⟨[], .absent, rfl⟩
  | spaced text =>
    cases h
    exact ⟨text, .spaced text, rfl⟩
  | grouped text =>
    rw [address_grouped] at h
    exact bind_ungroup_eq_error (fun _ _ => Address.parse_eq_error) h

end Operand

theorem Blamed.grouped {text t : List Char} (h : Blamed ('(' :: text) t) :
    t = match Operand.ungroup text with
      | .ok inside => inside
      | .error _ => text := by
  cases h with
  | closed _ h => rw [Operand.ungroup_eq_ok_iff.2 ⟨_, h, rfl⟩]
  | unclosed h =>
    cases hg : Operand.ungroup text with
    | error e => rfl
    | ok inside =>
      obtain ⟨after, hafter, htext⟩ := Operand.ungroup_eq_ok_iff.1 hg
      exact absurd htext (h inside after hafter)

theorem Blamed.unique {cs s t : List Char} (hs : Blamed cs s) (ht : Blamed cs t) : s = t := by
  cases hs with
  | absent =>
    cases ht
    rfl
  | spaced text =>
    cases ht
    rfl
  | closed _ h => exact (Blamed.closed s h).grouped.trans ht.grouped.symm
  | unclosed h => exact (Blamed.unclosed h).grouped.trans ht.grouped.symm

theorem known_mnemonic (o : Opcode) : Known o.mnemonic.toList := by
  cases o with
  | operator op => exact .inl ⟨_, _, .operator (Operator.named_iff.2 rfl), rfl⟩
  | lit => exact .inl ⟨_, _, .lit, rfl⟩
  | push => exact .inl ⟨_, _, .push, rfl⟩
  | jmp => exact .inl ⟨_, _, .jmp, rfl⟩
  | jmc => exact .inl ⟨_, _, .jmc, rfl⟩
  | call => exact .inl ⟨_, _, .call, rfl⟩
  | init => exact .inl ⟨_, _, .init, rfl⟩
  | ret => exact .inl ⟨_, _, .ret, rfl⟩
  | indirect kind =>
    cases kind with
    | load => exact .inl ⟨_, _, .loadi, rfl⟩
    | store => exact .inl ⟨_, _, .storei, rfl⟩
    | write => exact .inl ⟨_, _, .writei, rfl⟩
    | read => exact .inl ⟨_, _, .readi, rfl⟩
  | direct kind =>
    cases kind with
    | load => exact .inr ⟨_, _, .load, rfl⟩
    | store => exact .inr ⟨_, _, .store, rfl⟩
    | write => exact .inr ⟨_, _, .write, rfl⟩
    | read => exact .inr ⟨_, _, .read, rfl⟩
  | loada => exact .inr ⟨_, _, .loada, rfl⟩

theorem WordForm.exists_opcode {name : String} {make : Word → Instruction} (h : WordForm name make) :
    ∃ o : Opcode, o.mnemonic = name ∧
      ∀ operand : Operand, Instruction.build o operand = operand.word.map make := by
  cases h with
  | @operator _ op h => exact ⟨.operator op, Operator.named_iff.1 h, fun _ => rfl⟩
  | push => exact ⟨.push, rfl, fun _ => rfl⟩
  | lit => exact ⟨.lit, rfl, fun _ => rfl⟩
  | jmp => exact ⟨.jmp, rfl, fun _ => rfl⟩
  | jmc => exact ⟨.jmc, rfl, fun _ => rfl⟩
  | call => exact ⟨.call, rfl, fun _ => rfl⟩
  | init => exact ⟨.init, rfl, fun _ => rfl⟩
  | ret => exact ⟨.ret, rfl, fun _ => rfl⟩
  | loadi => exact ⟨.indirect .load, rfl, fun _ => rfl⟩
  | storei => exact ⟨.indirect .store, rfl, fun _ => rfl⟩
  | writei => exact ⟨.indirect .write, rfl, fun _ => rfl⟩
  | readi => exact ⟨.indirect .read, rfl, fun _ => rfl⟩

theorem AddressForm.exists_opcode {name : String} {make : Address → Instruction}
    (h : AddressForm name make) :
    ∃ o : Opcode, o.mnemonic = name ∧
      ∀ operand : Operand, Instruction.build o operand = operand.address.map make := by
  cases h with
  | load => exact ⟨.direct .load, rfl, fun _ => rfl⟩
  | store => exact ⟨.direct .store, rfl, fun _ => rfl⟩
  | write => exact ⟨.direct .write, rfl, fun _ => rfl⟩
  | read => exact ⟨.direct .read, rfl, fun _ => rfl⟩
  | loada => exact ⟨.loada, rfl, fun _ => rfl⟩

theorem WordForm.parse {name : String} {make : Word → Instruction} (h : WordForm name make)
    (operand : Operand) : Instruction.parse (name.toList ++ operand.text) = operand.word.map make := by
  obtain ⟨o, rfl, hbuild⟩ := h.exists_opcode
  rw [Instruction.parse_mnemonic, hbuild]

theorem AddressForm.parse {name : String} {make : Address → Instruction} (h : AddressForm name make)
    (operand : Operand) :
    Instruction.parse (name.toList ++ operand.text) = operand.address.map make := by
  obtain ⟨o, rfl, hbuild⟩ := h.exists_opcode
  rw [Instruction.parse_mnemonic, hbuild]

namespace Instruction

theorem parse_unknown {line : List Char} (h : ¬Known (line.takeWhile (· ∉ [' ', '(']))) :
    parse line =
      .error (.unknownInstruction (String.ofList (line.takeWhile (· ∉ [' ', '('])))) := by
  have hname : (Operand.split line).1 = line.takeWhile (· ∉ [' ', '(']) := by
    have hmark (c : Char) : decide (c ∉ [' ', '(']) = !(c == ' ' || c == '(') := by
      by_cases h₁ : c = ' ' <;> by_cases h₂ : c = '(' <;> simp [h₁, h₂]
    rw [← Text.splitFirst_fst hmark, Operand.split]
    split <;> simp [*]
  have hnone : Opcode.ofMnemonic? (line.takeWhile (· ∉ [' ', '('])) = none := by
    cases ho : Opcode.ofMnemonic? (line.takeWhile (· ∉ [' ', '('])) with
    | none => rfl
    | some o =>
      have hmnemonic := (Opcode.vocabulary.find_eq_some_iff fun _ => rfl).1 ho
      exact absurd (hmnemonic ▸ known_mnemonic o) h
  simp only [parse, hname, hnone]

theorem line_of_known {line : List Char} (h : Known (line.takeWhile (· ∉ [' ', '(']))) :
    ∃ operand : Operand, operand.text = line.dropWhile (· ∉ [' ', '(']) ∧
      ((∃ (name : String) (make : Word → Instruction), WordForm name make ∧
        line = name.toList ++ operand.text) ∨
      ∃ (name : String) (make : Address → Instruction), AddressForm name make ∧
        line = name.toList ++ operand.text) := by
  obtain ⟨operand, hoperand⟩ := Operand.exists_text line
  have hline : line = line.takeWhile (· ∉ [' ', '(']) ++ operand.text := by
    rw [hoperand, List.takeWhile_append_dropWhile]
  refine ⟨operand, hoperand, ?_⟩
  rcases h with ⟨name, make, hf, hname⟩ | ⟨name, make, hf, hname⟩
  · exact .inl ⟨name, make, hf, by rw [hname, ← hline]⟩
  · exact .inr ⟨name, make, hf, by rw [hname, ← hline]⟩

theorem parse_eq_ok_iff {line : List Char} {i : Instruction} : parse line = .ok i ↔ Spells line i := by
  constructor
  · intro h
    by_cases hknown : Known (line.takeWhile (· ∉ [' ', '(']))
    · obtain ⟨operand, -, ⟨name, make, hf, rfl⟩ | ⟨name, make, hf, rfl⟩⟩ := line_of_known hknown
      · rw [hf.parse] at h
        obtain ⟨n, hn, rfl⟩ := map_eq_ok_iff.1 h
        exact .word hf (Operand.word_eq_ok_iff.1 hn)
      · rw [hf.parse] at h
        obtain ⟨a, ha, rfl⟩ := map_eq_ok_iff.1 h
        exact .address hf (Operand.address_eq_ok_iff.1 ha)
    · rw [parse_unknown hknown] at h
      cases h
  · intro h
    cases h with
    | word hf h =>
      obtain ⟨operand, rfl⟩ := h.operand
      rw [hf.parse, Operand.word_eq_ok_iff.2 h]
      rfl
    | address hf h =>
      obtain ⟨operand, rfl⟩ := h.operand
      rw [hf.parse, Operand.address_eq_ok_iff.2 h]
      rfl

theorem parse_invalid {line : List Char} {e : ParseError}
    (hknown : Known (line.takeWhile (· ∉ [' ', '(']))) (h : parse line = .error e) :
    ∃ token, Blamed (line.dropWhile (· ∉ [' ', '('])) token ∧
      e = .invalidPayload (String.ofList token) := by
  obtain ⟨operand, hoperand, hform⟩ := line_of_known hknown
  rw [← hoperand]
  rcases hform with ⟨name, make, hf, hline⟩ | ⟨name, make, hf, hline⟩
  · rw [hline, hf.parse] at h
    exact Operand.word_eq_error (map_eq_error_iff.1 h)
  · rw [hline, hf.parse] at h
    exact Operand.address_eq_error (map_eq_error_iff.1 h)

end Instruction

/-- A line is read as an instruction if the grammar has it, and every other line is
refused: by its name if that is no mnemonic, else by its operand. -/
theorem operand_grammar_is_exact (line : List Char) :
    (∀ i, Instruction.parse line = .ok i ↔ Instruction.Spells line i) ∧
    (∀ token, Instruction.parse line = .error (.unknownInstruction token) ↔
      ¬Known (line.takeWhile (· ∉ [' ', '('])) ∧
        token = String.ofList (line.takeWhile (· ∉ [' ', '(']))) ∧
    ∀ token, Instruction.parse line = .error (.invalidPayload token) ↔
      Known (line.takeWhile (· ∉ [' ', '('])) ∧ (¬∃ i, Instruction.Spells line i) ∧
        ∃ text, Blamed (line.dropWhile (· ∉ [' ', '('])) text ∧ token = String.ofList text := by
  refine ⟨fun i => Instruction.parse_eq_ok_iff,
    answers_iff (fun i => Instruction.parse_eq_ok_iff) Instruction.parse_unknown ?_ ?_⟩
  · intro hknown e he
    obtain ⟨text, htext, rfl⟩ := Instruction.parse_invalid hknown he
    exact ⟨_, ⟨text, htext, rfl⟩, rfl⟩
  · intro s t hs ht
    obtain ⟨text, htext, rfl⟩ := hs
    obtain ⟨text', htext', rfl⟩ := ht
    rw [htext.unique htext']

example : Instruction.parse "STORE( lokal ,\t+007 ) ".toList =
    .ok (.direct .store ⟨.localBase, 7⟩) := rfl

-- A space ends the name, so the parenthesis behind it opens no group.
example : Instruction.parse "STORE (local,7)".toList = .error (.invalidPayload "(local,7)") := rfl

example : Instruction.parse "CALL((3))".toList = .error (.invalidPayload "(3)") := rfl

end AM1
end AbstractMachines
