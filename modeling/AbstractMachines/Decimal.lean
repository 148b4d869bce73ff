import AbstractMachines.Word

/-!
# Decimal text of words

Words are written in decimal with a minus sign where needed. They are read
more liberally: either sign, any number of leading zeros, and nothing else, so
neither blanks nor separators between the digits.
-/

namespace AbstractMachines
namespace Word

def text (w : Word) : String :=
  if w < 0 then "-" ++ Nat.repr w.toInt.natAbs else Nat.repr w.toInt.natAbs

def digits? (ds : List Char) : Option Nat :=
  if ds ≠ [] ∧ ds.all Char.isDigit then some (Nat.ofDigitChars 10 ds 0) else none

def ofText? : List Char → Option Word
  | '+' :: ds => (digits? ds).bind fun n => ofInt? n
  | '-' :: ds => (digits? ds).bind fun n => ofInt? (-n)
  | ds => (digits? ds).bind fun n => ofInt? n

def listText (ws : List Word) : String :=
  "[" ++ ", ".intercalate (ws.map text) ++ "]"

end Word
end AbstractMachines
