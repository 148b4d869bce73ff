import AbstractMachines.Core
import AbstractMachines.AM1.Instruction

/-!
# The AM1 machine

A counter, an operand stack, a runtime stack and a reference pointer. The
slots of the runtime stack are addressed from one. A call pushes the number of
the instruction to return to and the caller's reference, and makes the slot of
the latter the new reference. Parameters therefore lie at negative local
offsets and local variables at positive ones:

    parameters | return | saved reference | local variables
                          ^ reference

The runtime stack never grows past `slotLimit` slots.
-/

namespace AbstractMachines
namespace AM1

def slotLimit : Nat := 1048576

structure Machine extends Core where
  runtime : Array Word := #[]
  reference : Word := 0
  deriving DecidableEq

instance : HasCore Machine where
  core m := m.toCore
  withCore c m := { m with toCore := c }

namespace Machine

def resolve (m : Machine) (a : Address) : Word :=
  match a.base with
  | .globalBase => a.offset
  | .localBase => m.reference.addClamp a.offset

def slot? (m : Machine) (a : Word) : Option Word :=
  if 1 ≤ a then m.runtime[a.toNatClampNeg - 1]? else none

def missing (m : Machine) (a : Word) : Action Machine := .fail m (.missingAddress m.counter a)

def assign (a v : Word) (m : Machine) : Machine :=
  { m with runtime := m.runtime.setIfInBounds (a.toNatClampNeg - 1) v }

def advance (m : Machine) : Machine := { m with toCore := m.next }

/-- An access to the slot at `a`. Storing needs a word on the operand stack
before the slot is looked at. -/
def access (kind : Access) (a : Word) (m : Machine) : Action Machine :=
  match kind with
  | .load =>
    match m.slot? a with
    | some v => .done { m with toCore := (m.push v).next } none
    | none => m.missing a
  | .store =>
    match m.stack with
    | v :: rest =>
      match m.slot? a with
      | some _ => .done ({ m with stack := rest }.assign a v).advance none
      | none => m.missing a
    | [] => .fail m (m.underflow 1)
  | .write =>
    match m.slot? a with
    | some v => .done m.advance (some v)
    | none => m.missing a
  | .read =>
    match m.slot? a with
    | some _ => .read m a
    | none => m.missing a

/-- An access to the slot whose address lies in the local slot at `o`. -/
def accessIndirect (kind : Access) (o : Word) (m : Machine) : Action Machine :=
  if kind = .store ∧ m.stack = [] then .fail m (m.underflow 1)
  else
    let pointer := m.reference.addClamp o
    match m.slot? pointer with
    | some a => m.access kind a
    | none => m.missing pointer

def HasRoom (m : Machine) (extra : Nat) : Prop := m.runtime.size + extra ≤ slotLimit

instance (m : Machine) (extra : Nat) : Decidable (m.HasRoom extra) :=
  inferInstanceAs (Decidable (_ ≤ _))

def overflow (m : Machine) : Action Machine := .fail m (.stackOverflow m.counter slotLimit)

def pushSlot (m : Machine) : Action Machine :=
  match m.stack with
  | v :: rest =>
    if m.HasRoom 1 then
      .done { m with stack := rest, runtime := m.runtime.push v }.advance none
    else m.overflow
  | [] => .fail m (m.underflow 1)

def enter (n : Word) : Machine → Machine
  | ⟨core, runtime, reference⟩ =>
    let top := Int64.ofNat (runtime.size + 2)
    ⟨core.jump n, (runtime.push (core.counter.addClamp 2)).push reference, top⟩

def call (n : Word) (m : Machine) : Action Machine :=
  if m.HasRoom 2 then .done (m.enter n) none else m.overflow

def init (n : Word) (m : Machine) : Action Machine :=
  let count := n.toNatClampNeg
  if m.HasRoom count then
    .done { m with runtime := m.runtime ++ Array.replicate count 0 }.advance none
  else m.overflow

def ret (params : Word) (m : Machine) : Action Machine :=
  let returnSlot := m.reference.subClamp 1
  match m.slot? returnSlot with
  | none => m.missing returnSlot
  | some target =>
    match m.slot? m.reference with
    | none => m.missing m.reference
    | some saved =>
      let keep := (m.reference.subClamp 2).subClamp params
      if keep < 0 then m.missing keep
      else
        .done { m with
          toCore := m.jump target
          runtime := m.runtime.shrink keep.toNatClampNeg
          reference := saved } none

def act (i : Instruction) (m : Machine) : Action Machine :=
  match i with
  | .operator op => onCore (Core.operate op) m
  | .direct kind a => m.access kind (m.resolve a)
  | .indirect kind o => m.accessIndirect kind o
  | .lit n => .done { m with toCore := (m.push n).next } none
  | .loada a => .done { m with toCore := (m.push (m.resolve a)).next } none
  | .push => m.pushSlot
  | .jmp n => .done { m with toCore := m.jump n } none
  | .jmc n => onCore (Core.branch n) m
  | .call n => m.call n
  | .init n => m.init n
  | .ret n => m.ret n

def deliver (a v : Word) (m : Machine) : Machine := (m.assign a v).advance

def status (m : Machine) : String :=
  "Counter: " ++ m.counter.text ++ "\nStack: " ++ Word.listText m.stack.reverse ++
    "\nRuntime stack: " ++ Word.listText m.runtime.toList ++ "\nReference: " ++ m.reference.text

def snapshot (m : Machine) (input output : List Word) : String :=
  "(" ++ m.counter.text ++ ", " ++ Word.listText m.stack.reverse ++ ", " ++
    Word.listText m.runtime.toList ++ ", " ++ m.reference.text ++ ", " ++ Word.listText input ++
    ", " ++ Word.listText output ++ ")"

end Machine

instance : Model Machine Instruction where
  initial := {}
  counter m := m.counter
  setCounter c m := { m with counter := c }
  act := Machine.act
  deliver := Machine.deliver
  status := Machine.status
  snapshot := Machine.snapshot

end AM1
end AbstractMachines
