import AbstractMachines.Model
import AbstractMachines.Operator

/-!
# Counter and operand stack

Every machine has a counter and an operand stack, and every instruction set
has the instructions that touch nothing else: the operators, literals, and
plain and conditional jumps. They are defined once, here, and lifted to the
machines that have a core. The head of the list is the top of the stack.
-/

namespace AbstractMachines

structure Core where
  counter : Word := 0
  stack : List Word := []
  deriving DecidableEq

namespace Core

def next (c : Core) : Core := { c with counter := c.counter.advance }

def push (v : Word) (c : Core) : Core := { c with stack := v :: c.stack }

def jump (n : Word) (c : Core) : Core := { c with counter := n.jumpBias.advance }

def underflow (c : Core) (needed : Nat) : RuntimeError :=
  .stackUnderflow c.counter needed c.stack.length

def operate (op : Operator) (c : Core) : Except RuntimeError Core :=
  match c.stack with
  | b :: a :: rest =>
    match op.eval? a b with
    | some v => .ok (({ c with stack := rest }).push v).next
    | none => .error (.divisionByZero c.counter)
  | _ => .error (c.underflow 2)

def branch (n : Word) (c : Core) : Except RuntimeError Core :=
  match c.stack with
  | v :: rest =>
    let popped := { c with stack := rest }
    .ok (if v = 0 then popped.jump n else popped.next)
  | [] => .error (c.underflow 1)

end Core

class HasCore (μ : Type) where
  core : μ → Core
  withCore : Core → μ → μ

/-- An instruction that concerns the counter and the operand stack only. -/
def onCore {μ : Type} [HasCore μ] (f : Core → Except RuntimeError Core) (m : μ) : Action μ :=
  match f (HasCore.core m) with
  | .ok c => .done (HasCore.withCore c m) none
  | .error e => .fail m e

end AbstractMachines
