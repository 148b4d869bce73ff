/-!
# Machine words

Counters, stack entries, addresses and payloads are 64-bit signed integers.
Two kinds of arithmetic meet here. Values on the operand stack wrap around;
counters and addresses stop at the ends of the range, so that a counter that
leaves a program never comes back into it by overflow.
-/

namespace AbstractMachines

abbrev Word := Int64

namespace Word

def ofInt? (i : Int) : Option Word :=
  if Int64.minValue.toInt ≤ i ∧ i ≤ Int64.maxValue.toInt then some (Int64.ofInt i) else none

def addClamp (a b : Word) : Word := Int64.ofIntClamp (a.toInt + b.toInt)

def subClamp (a b : Word) : Word := Int64.ofIntClamp (a.toInt - b.toInt)

def advance (c : Word) : Word := c.addClamp 1

/-- Jump targets count from one, counters from zero, and the counter advances
after a jump as after any other instruction. A jump to `n` leaves this. -/
def jumpBias (n : Word) : Word := n.subClamp 2

def ofBool (b : Bool) : Word := if b then 1 else 0

/-- The truncated remainder `r` of a division by `b` lies on the wrong side of
zero for a quotient rounded down. -/
def Misplaced (r b : Word) : Prop := r ≠ 0 ∧ ¬(r < 0 ↔ b < 0)

instance (r b : Word) : Decidable (Misplaced r b) :=
  inferInstanceAs (Decidable (_ ∧ _))

def floorDiv? (a b : Word) : Option Word :=
  if b = 0 then none
  else some (if Misplaced (a % b) b then a / b - 1 else a / b)

def floorMod? (a b : Word) : Option Word :=
  if b = 0 then none
  else some (if Misplaced (a % b) b then a % b + b else a % b)

end Word
end AbstractMachines
