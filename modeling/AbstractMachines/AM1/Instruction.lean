import AbstractMachines.Model
import AbstractMachines.Operator
import AbstractMachines.AM1.Address

/-!
# AM1 instructions

The four accesses come in two forms. A direct access names its slot by an
address; an indirect one finds the slot's address in a local slot. On a line,
the operand follows the mnemonic after a blank or in parentheses. Integers may
be written either way and addresses in parentheses only.
-/

namespace AbstractMachines
namespace AM1

inductive Opcode where
  | operator (op : Operator)
  | direct (kind : Access)
  | indirect (kind : Access)
  | lit | loada | push | jmp | jmc | call | init | ret
  deriving DecidableEq

namespace Opcode

def all : List Opcode :=
  Operator.all.map operator ++
    [lit, direct .load, direct .store, direct .write, direct .read, loada,
      indirect .load, indirect .store, indirect .write, indirect .read,
      push, jmp, jmc, call, init, ret]

def mnemonic : Opcode → String
  | operator op => op.mnemonic
  | direct .load => "LOAD"
  | direct .store => "STORE"
  | direct .write => "WRITE"
  | direct .read => "READ"
  | indirect .load => "LOADI"
  | indirect .store => "STOREI"
  | indirect .write => "WRITEI"
  | indirect .read => "READI"
  | lit => "LIT"
  | loada => "LOADA"
  | push => "PUSH"
  | jmp => "JMP"
  | jmc => "JMC"
  | call => "CALL"
  | init => "INIT"
  | ret => "RET"

def ofMnemonic? (name : List Char) : Option Opcode :=
  all.find? fun o => o.mnemonic.toList == name

end Opcode

inductive Instruction where
  | operator (op : Operator)
  | direct (kind : Access) (a : Address)
  | indirect (kind : Access) (o : Word)
  | lit (n : Word)
  | loada (a : Address)
  | push
  | jmp (n : Word)
  | jmc (n : Word)
  | call (n : Word)
  | init (n : Word)
  | ret (n : Word)
  deriving DecidableEq

inductive Operand where
  | absent
  | spaced (text : List Char)
  | grouped (text : List Char)
  deriving DecidableEq

namespace Operand

def split (line : List Char) : List Char × Operand :=
  match Text.splitFirst (fun c => c == ' ' || c == '(') line with
  | (name, none) => (name, .absent)
  | (name, some (d, rest)) => (name, if d = '(' then .grouped rest else .spaced rest)

def ungroup (text : List Char) : Except ParseError (List Char) :=
  let inside := Text.trimEnd text
  if inside.getLast? = some ')' then .ok inside.dropLast
  else .error (.invalidPayload (String.ofList text))

def word : Operand → Except ParseError Word
  | absent => .ok 0
  | spaced text => Word.parse text
  | grouped text =>
    match ungroup text with
    | .ok inside => Word.parse inside
    | .error e => .error e

def address : Operand → Except ParseError Address
  | absent => .error (.invalidPayload "")
  | spaced text => .error (.invalidPayload (String.ofList text))
  | grouped text =>
    match ungroup text with
    | .ok inside => Address.parse inside
    | .error e => .error e

end Operand

namespace Instruction

/-- An instruction from its opcode and operand. The opcodes without an operand
still check the word that is given to them. -/
def build (o : Opcode) (operand : Operand) : Except ParseError Instruction :=
  match o with
  | .operator op => operand.word.map fun _ => operator op
  | .direct kind => operand.address.map (direct kind)
  | .indirect kind => operand.word.map (indirect kind)
  | .lit => operand.word.map lit
  | .loada => operand.address.map loada
  | .push => operand.word.map fun _ => push
  | .jmp => operand.word.map jmp
  | .jmc => operand.word.map jmc
  | .call => operand.word.map call
  | .init => operand.word.map init
  | .ret => operand.word.map ret

def parse (line : List Char) : Except ParseError Instruction :=
  let (name, operand) := Operand.split line
  match Opcode.ofMnemonic? name with
  | some o => build o operand
  | none => .error (.unknownInstruction (String.ofList name))

def opcode : Instruction → Opcode
  | operator op => .operator op
  | direct kind _ => .direct kind
  | indirect kind _ => .indirect kind
  | lit _ => .lit
  | loada _ => .loada
  | push => .push
  | jmp _ => .jmp
  | jmc _ => .jmc
  | call _ => .call
  | init _ => .init
  | ret _ => .ret

def mnemonic (i : Instruction) : String := i.opcode.mnemonic

def render (i : Instruction) : String :=
  match i with
  | operator _ | push => i.mnemonic
  | direct _ a | loada a => i.mnemonic ++ "(" ++ a.text ++ ")"
  | indirect _ o => i.mnemonic ++ "(" ++ o.text ++ ")"
  | lit n | jmp n | jmc n | call n | init n | ret n => i.mnemonic ++ " " ++ n.text

def isJump : Instruction → Bool
  | jmp _ | jmc _ | call _ | ret _ => true
  | _ => false

def hasPayload : Instruction → Bool
  | operator _ | push => false
  | _ => true

end Instruction

instance : InstructionSet Instruction where
  name := "AM1"
  parse := Instruction.parse
  render := Instruction.render
  isJump := Instruction.isJump
  hasPayload := Instruction.hasPayload

end AM1
end AbstractMachines
