import AbstractMachines.Core
import AbstractMachines.AM0.Instruction
import AbstractMachines.AM0.Memory

/-!
# The AM0 machine

A counter, an operand stack and a sparse memory. A cell exists once something
has been stored or read into it; loading or writing any other address fails.
-/

namespace AbstractMachines
namespace AM0

structure Machine extends Core where
  memory : Memory := .empty
  deriving DecidableEq

instance : HasCore Machine where
  core m := m.toCore
  withCore c m := { m with toCore := c }

namespace Machine

def missing (m : Machine) (a : Word) : Action Machine := .fail m (.missingAddress m.counter a)

def access (kind : Access) (a : Word) (m : Machine) : Action Machine :=
  match kind with
  | .load =>
    match m.memory.get? a with
    | some v => .done { m with toCore := (m.push v).next } none
    | none => m.missing a
  | .store =>
    match m.stack with
    | v :: rest =>
      .done { m with stack := rest, counter := m.counter.advance, memory := m.memory.insert a v } none
    | [] => .fail m (m.underflow 1)
  | .write =>
    match m.memory.get? a with
    | some v => .done { m with toCore := m.next } (some v)
    | none => m.missing a
  | .read => .read m a

def act (i : Instruction) (m : Machine) : Action Machine :=
  match i.opcode with
  | .operator op => onCore (Core.operate op) m
  | .access kind => m.access kind i.payload
  | .lit => .done { m with toCore := (m.push i.payload).next } none
  | .jmp => .done { m with toCore := m.jump i.payload } none
  | .jmc => onCore (Core.branch i.payload) m

def deliver (a v : Word) (m : Machine) : Machine :=
  { m with toCore := m.next, memory := m.memory.insert a v }

def status (m : Machine) : String :=
  "Counter: " ++ m.counter.text ++ "\nStack: " ++ Word.listText m.stack.reverse ++ "\nMemory:\n" ++
    "\n".intercalate (m.memory.cells.map fun p => "\t" ++ p.1.text ++ " := " ++ p.2.text)

def memoryText (m : Memory) : String :=
  "\x7b" ++ ", ".intercalate (m.cells.map fun p => p.1.text ++ ": " ++ p.2.text) ++ "\x7d"

def snapshot (m : Machine) (input output : List Word) : String :=
  "(" ++ m.counter.text ++ ", " ++ Word.listText m.stack.reverse ++ ", " ++ memoryText m.memory ++
    ", " ++ Word.listText input ++ ", " ++ Word.listText output ++ ")"

end Machine

instance : Model Machine Instruction where
  initial := {}
  counter m := m.counter
  setCounter c m := { m with counter := c }
  act := Machine.act
  deliver := Machine.deliver
  status := Machine.status
  snapshot := Machine.snapshot

end AM0
end AbstractMachines
