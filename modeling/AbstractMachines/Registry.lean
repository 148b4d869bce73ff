import AbstractMachines.Error
import AbstractMachines.Text

/-!
# Registries

A registry finds things by name, up to the case of ASCII letters. Registering
a name again replaces the entry where it stands and takes over the new
spelling; other names are added at the end.
-/

namespace AbstractMachines

structure UnknownName where
  name : String
  available : List String
  deriving DecidableEq

def UnknownName.message (e : UnknownName) : String :=
  "unknown instruction set '" ++ e.name ++ "' (available: " ++ ", ".intercalate e.available ++ ")"

structure Registry (α : Type) where
  entries : List (String × α) := []

namespace Registry

variable {α : Type}

def names (r : Registry α) : List String := r.entries.map (·.1)

def put (name : String) (a : α) : List (String × α) → List (String × α)
  | [] => [(name, a)]
  | e :: rest =>
    if Text.sameName e.1 name then (name, a) :: rest else e :: put name a rest

def register (r : Registry α) (name : String) (a : α) : Registry α := ⟨put name a r.entries⟩

def find (r : Registry α) (name : String) : Except UnknownName α :=
  match r.entries.find? fun e => Text.sameName e.1 name with
  | some e => .ok e.2
  | none => .error ⟨name, r.names⟩

end Registry

inductive Kind where
  | am0 | am1
  deriving DecidableEq

def Registry.builtin : Registry Kind := ⟨[("AM0", .am0), ("AM1", .am1)]⟩

end AbstractMachines
