import AbstractMachines.Model
import AbstractMachines.Text

/-!
# Programs

A program is read from a text with one instruction on a line. Blank lines are
skipped but counted, and the first line that does not parse is reported with
its number. It is written back with one instruction on a line.
-/

namespace AbstractMachines

structure Program (ι : Type) where
  code : Array ι
  deriving DecidableEq

namespace Program

variable {ι : Type}

def fetch (p : Program ι) (c : Word) : Option ι :=
  if 0 ≤ c then p.code[c.toNatClampNeg]? else none

variable [InstructionSet ι]

def parseLines : Nat → List (List Char) → Except ProgramError (List ι)
  | _, [] => .ok []
  | n, line :: rest =>
    if Text.trim line = [] then parseLines (n + 1) rest
    else
      match InstructionSet.parse line with
      | .error cause => .error ⟨n, cause⟩
      | .ok i => (parseLines (n + 1) rest).map (i :: ·)

def parse (source : List Char) : Except ProgramError (Program ι) :=
  (parseLines 1 (Text.lines source)).map fun code => ⟨code.toArray⟩

def render (p : Program ι) : String :=
  String.join (p.code.toList.map fun i => InstructionSet.render i ++ "\n")

end Program
end AbstractMachines
