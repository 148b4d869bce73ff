import AbstractMachines.Error

/-!
# Files by path

A folder is given by the files put into it, each under a path of its own; of
two under the same path the later one is there. A path is followed step by
step from the folder; directories are the beginnings of file paths. Outside
the folder nothing is known but that there are directories. The length of a
whole path is checked before its first step, that of a name only when the name
is looked up in a directory.
-/

namespace AbstractMachines

structure Folder where
  files : List (String × List UInt8) := []

namespace Folder

def pathLimit : Nat := 4095

def nameLimit : Nat := 255

def tooLong (name : List Char) : Bool := nameLimit < (String.ofList name).utf8ByteSize

def steps (path : String) : List (List Char) := path.toList.splitOn '/'

def location (path : String) : List (List Char) :=
  (steps path).foldl (fun here name =>
    if name = [] ∨ name = ['.'] then here
    else if name = ['.', '.'] then here.dropLast
    else here ++ [name]) []

inductive Place where
  | inside (directory : List (List Char))
  | outside
  | file (bytes : List UInt8)

def enter (f : Folder) (directory : List (List Char)) (name : List Char) : Except IoError Place :=
  let here := directory ++ [name]
  match f.files.reverse.find? fun e => location e.1 = here with
  | some e => .ok (.file e.2)
  | none =>
    if f.files.any fun e => here.isPrefixOf (location e.1) then .ok (.inside here)
    else .error .notFound

def step (f : Folder) (name : List Char) : Place → Except IoError Place
  | .file _ => .error .notDirectory
  | .outside =>
    if name = [] ∨ name = ['.'] ∨ name = ['.', '.'] then .ok .outside
    else if tooLong name then .error .nameTooLong
    else .error .notFound
  | .inside directory =>
    if name = [] ∨ name = ['.'] then .ok (.inside directory)
    else if name = ['.', '.'] then
      .ok (if directory = [] then .outside else .inside directory.dropLast)
    else if tooLong name then .error .nameTooLong
    else f.enter directory name

def follow (f : Folder) : List (List Char) → Place → Except IoError Place
  | [], place => .ok place
  | name :: rest, place => (f.step name place).bind (f.follow rest)

def read (f : Folder) (path : String) : Except IoError (List UInt8) :=
  let start := if path.toList.head? = some '/' then .outside else .inside []
  if pathLimit < path.utf8ByteSize then .error .nameTooLong
  else
    match f.follow (steps path) start with
    | .ok (.file bytes) => .ok bytes
    | .ok _ => .error .isDirectory
    | .error e => .error e

end Folder
end AbstractMachines
