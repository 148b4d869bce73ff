import AbstractMachines.Payload

/-!
# Runtime-stack addresses

An address is an offset from the bottom of the runtime stack or from the
current frame. The base of a local address may be spelled in two ways and is
written in one.
-/

namespace AbstractMachines
namespace AM1

inductive Base where
  | globalBase | localBase
  deriving DecidableEq

namespace Base

def text : Base → String
  | globalBase => "global"
  | localBase => "local"

def ofText? (cs : List Char) : Option Base :=
  if cs = "global".toList then some globalBase
  else if cs = "local".toList ∨ cs = "lokal".toList then some localBase
  else none

end Base

structure Address where
  base : Base
  offset : Word
  deriving DecidableEq

namespace Address

def parse (cs : List Char) : Except ParseError Address :=
  let bad := ParseError.invalidPayload (String.ofList cs)
  match Text.splitOnce ',' cs with
  | (_, none) => .error bad
  | (base, some offset) =>
    match Base.ofText? (Text.trim base), Word.ofText? (Text.trim offset) with
    | some b, some o => .ok ⟨b, o⟩
    | _, _ => .error bad

def text (a : Address) : String := a.base.text ++ "," ++ a.offset.text

end Address
end AM1
end AbstractMachines
