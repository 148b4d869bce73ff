import AbstractMachines.Model
import AbstractMachines.Operator
import AbstractMachines.Payload

/-!
# AM0 instructions

An instruction is an opcode with a word beside it. The operators have no use
for the word: it is checked when a line is read, dropped from the result, and
never written.
-/

namespace AbstractMachines
namespace AM0

inductive Opcode where
  | operator (op : Operator)
  | access (a : Access)
  | lit | jmp | jmc
  deriving DecidableEq

namespace Opcode

def all : List Opcode :=
  Operator.all.map operator ++
    [access .load, access .store, lit, jmp, jmc, access .write, access .read]

def code (o : Opcode) : Nat := all.idxOf o + 1

def mnemonic : Opcode → String
  | operator op => op.mnemonic
  | access .load => "LOAD"
  | access .store => "STORE"
  | access .write => "WRITE"
  | access .read => "READ"
  | lit => "LIT"
  | jmp => "JMP"
  | jmc => "JMC"

def ofMnemonic? (name : List Char) : Option Opcode :=
  all.find? fun o => o.mnemonic.toList == name

def isOperator : Opcode → Bool
  | operator _ => true
  | _ => false

def isJump : Opcode → Bool
  | jmp | jmc => true
  | _ => false

def hasPayload (o : Opcode) : Bool := !o.isOperator

end Opcode

structure Instruction where
  opcode : Opcode
  payload : Word := 0
  deriving DecidableEq

namespace Instruction

def parse (line : List Char) : Except ParseError Instruction :=
  let (name, rest) := Text.splitOnce ' ' line
  match Opcode.ofMnemonic? name with
  | none => .error (.unknownInstruction (String.ofList name))
  | some opcode =>
    match rest with
    | none => .ok ⟨opcode, 0⟩
    | some text =>
      match Word.parse text with
      | .error e => .error e
      | .ok n => .ok ⟨opcode, if opcode.hasPayload then n else 0⟩

def render (i : Instruction) : String :=
  if i.opcode.hasPayload then i.opcode.mnemonic ++ " " ++ i.payload.text else i.opcode.mnemonic

end Instruction

instance : InstructionSet Instruction where
  name := "AM0"
  parse := Instruction.parse
  render := Instruction.render
  isJump i := i.opcode.isJump
  hasPayload i := i.opcode.hasPayload

end AM0
end AbstractMachines
