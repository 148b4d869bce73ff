import AbstractMachines.Error
import AbstractMachines.Text

/-!
# Payloads

A payload is a word with any blanks around it. Text that is none is reported
as it was given, blanks included.
-/

namespace AbstractMachines

def Word.parse (text : List Char) : Except ParseError Word :=
  match Word.ofText? (Text.trim text) with
  | some n => .ok n
  | none => .error (.invalidPayload (String.ofList text))

end AbstractMachines
