import AbstractMachines.Word

/-!
# Operators and memory accesses

The eleven operators pop two words and push one. Sums, differences and
products wrap around, division rounds toward negative infinity, and a
comparison gives one or zero. An operator has no result only when it divides
by zero.

The four accesses move a word between a memory cell and the operand stack or
the outside.
-/

namespace AbstractMachines

inductive Operator where
  | add | mul | sub | div | mod | eq | ne | lt | gt | le | ge
  deriving DecidableEq

namespace Operator

def all : List Operator := [add, mul, sub, div, mod, eq, ne, lt, gt, le, ge]

def mnemonic : Operator → String
  | add => "ADD"
  | mul => "MUL"
  | sub => "SUB"
  | div => "DIV"
  | mod => "MOD"
  | eq => "EQ"
  | ne => "NE"
  | lt => "LT"
  | gt => "GT"
  | le => "LE"
  | ge => "GE"

def ofMnemonic? (name : List Char) : Option Operator :=
  all.find? fun op => op.mnemonic.toList == name

/-- The value of `a op b`, where `a` lay below `b` on the stack. -/
def eval? (op : Operator) (a b : Word) : Option Word :=
  match op with
  | add => some (a + b)
  | mul => some (a * b)
  | sub => some (a - b)
  | div => Word.floorDiv? a b
  | mod => Word.floorMod? a b
  | eq => some (Word.ofBool (a = b))
  | ne => some (Word.ofBool (a ≠ b))
  | lt => some (Word.ofBool (a < b))
  | gt => some (Word.ofBool (b < a))
  | le => some (Word.ofBool (a ≤ b))
  | ge => some (Word.ofBool (b ≤ a))

end Operator

inductive Access where
  | load | store | write | read
  deriving DecidableEq

end AbstractMachines
