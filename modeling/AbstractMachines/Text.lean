/-!
# Characters, blanks and lines

Input is read as lists of characters. Blanks are the characters with the
Unicode property White_Space, which is more than the ASCII blanks and does not
include the zero-width space or the byte order mark.
-/

namespace AbstractMachines
namespace Text

/-- The 25 code points with the property White_Space. -/
def isBlank (c : Char) : Bool :=
  let n := c.toNat
  (0x09 ≤ n && n ≤ 0x0D) || n == 0x20 || n == 0x85 || n == 0xA0 || n == 0x1680 ||
    (0x2000 ≤ n && n ≤ 0x200A) || n == 0x2028 || n == 0x2029 || n == 0x202F ||
    n == 0x205F || n == 0x3000

def dropWhileEnd (p : Char → Bool) (cs : List Char) : List Char :=
  (cs.reverse.dropWhile p).reverse

def trimEnd (cs : List Char) : List Char := dropWhileEnd isBlank cs

def trim (cs : List Char) : List Char := trimEnd (cs.dropWhile isBlank)

def splitFirst (p : Char → Bool) : List Char → List Char × Option (Char × List Char)
  | [] => ([], none)
  | c :: cs =>
    if p c then ([], some (c, cs))
    else
      let (front, rest) := splitFirst p cs
      (c :: front, rest)

def splitOnce (d : Char) (cs : List Char) : List Char × Option (List Char) :=
  let (front, rest) := splitFirst (· == d) cs
  (front, rest.map (·.2))

/-- The lines of a text. A line ends at a line feed, which takes one carriage
return directly before it along. The last line needs no terminator. -/
def lines : List Char → List (List Char)
  | [] => []
  | '\n' :: cs => [] :: lines cs
  | '\r' :: '\n' :: cs => [] :: lines cs
  | c :: cs =>
    match lines cs with
    | [] => [[c]]
    | l :: ls => (c :: l) :: ls

def sameName (s t : String) : Bool := s.toList.map Char.toLower == t.toList.map Char.toLower

end Text
end AbstractMachines
