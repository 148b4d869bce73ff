import AbstractMachines.Decimal

/-!
# Command-line arguments

The arguments are options, then a subcommand, then the subcommand's own
options and file. An option takes its value from the same argument or from the
next one. In the second case it stays open: whether the value is good is
decided only when another option or a file begins or the arguments end. An
argument that cannot be understood is reported before what is still open. A
double dash makes every argument after it a plain one.
-/

namespace AbstractMachines

inductive Command where
  | repl
  | exec (file : Option String)
  | trace (file : Option String) (input : List Word)
  deriving DecidableEq

structure Config where
  instructions : String
  command : Command
  deriving DecidableEq

inductive Usage where
  | displayHelp
  | displayVersion
  | nothingGiven
  | missingSubcommand
  | invalidSubcommand
  | unknownArgument
  | invalidValue
  | valueValidation
  | argumentConflict
  | tooManyValues
  deriving DecidableEq

namespace Usage

/-- Asking for help or for the version is no mistake. -/
def exitCode : Usage → Nat
  | displayHelp | displayVersion => 0
  | _ => 2

def versionText : String := "amn 0.3.0\n"

end Usage

namespace Arguments

inductive Scope where
  | top | repl | exec | trace
  deriving DecidableEq

inductive Parameter where
  | instructions | input | file
  deriving DecidableEq

inductive Switch where
  | help
  | version
  | value (p : Parameter)
  deriving DecidableEq

def Switch.ofLong? (scope : Scope) (name : List Char) : Option Switch :=
  if name = "help".toList then some help
  else if scope = .top ∧ name = "version".toList then some version
  else if scope = .top ∧ name = "instructions".toList then some (value .instructions)
  else if scope = .trace ∧ name = "input".toList then some (value .input)
  else none

def Switch.ofShort? (scope : Scope) (c : Char) : Option Switch :=
  if c = 'h' then some help
  else if scope = .top ∧ c = 'V' then some version
  else if scope = .top ∧ c = 'i' then some (value .instructions)
  else none

inductive Subcommand where
  | help
  | run (scope : Scope)
  deriving DecidableEq

def Subcommand.ofName? (name : List Char) : Option Subcommand :=
  if name = "repl".toList then some (run .repl)
  else if name = "exec".toList then some (run .exec)
  else if name = "trace".toList then some (run .trace)
  else if name = "help".toList then some help
  else none

def Scope.takesFile : Scope → Bool
  | exec | trace => true
  | top | repl => false

structure State where
  instructions : Option String := none
  input : List Word := []
  file : Option String := none
  /-- A parameter that is not settled yet, with its value once that is there. -/
  pending : Option (Parameter × Option (List Char)) := none
  fileGiven : Bool := false
  trailing : Bool := false

namespace State

def awaited? (s : State) : Option Parameter :=
  match s.pending with
  | some (p, none) => some p
  | _ => none

def settle (s : State) : Except Usage State :=
  match s.pending with
  | none => .ok s
  | some (_, none) => .error .invalidValue
  | some (.instructions, some v) =>
    if s.instructions.isSome then .error .argumentConflict
    else .ok { s with instructions := some (String.ofList v), pending := none }
  | some (.input, some v) =>
    match (v.splitOn ',').mapM Word.ofText? with
    | some ws => .ok { s with input := s.input ++ ws, pending := none }
    | none => .error .valueValidation
  | some (.file, some v) =>
    if v = [] then .error .invalidValue
    else .ok { s with file := some (String.ofList v), pending := none }

def stop (s : State) (u : Usage) : Except Usage State := s.settle.bind fun _ => .error u

def begin (s : State) (p : Parameter) : Except Usage State :=
  s.settle.map fun s => { s with pending := some (p, none) }

def attach (s : State) (p : Parameter) (v : List Char) : Except Usage State :=
  s.settle.bind fun s => { s with pending := some (p, some v) }.settle

end State

/-- What may follow a dash and still be taken for a negative number: digits, a
point after the first of them, and an exponent that is neither first nor last. -/
def looksNumeric (cs : List Char) : Bool :=
  let (mantissa, exponent) := cs.span fun c => c != 'e' && c != 'E'
  let whole := match mantissa with
    | [] => []
    | c :: rest => c :: rest.erase '.'
  whole.all Char.isDigit &&
    match exponent with
    | [] => true
    | _ :: ds => mantissa != [] && ds != [] && ds.all Char.isDigit

def long (scope : Scope) (body : List Char) (s : State) : Except Usage State :=
  let (name, rest) := body.span (· != '=')
  match Switch.ofLong? scope name, rest with
  | none, _ => .error .unknownArgument
  | some (.value p), [] => s.begin p
  | some (.value p), _ :: v => s.attach p v
  | some .help, [] => s.stop .displayHelp
  | some .version, [] => s.stop .displayVersion
  | some _, _ :: _ => .error .tooManyValues

def short (scope : Scope) (letter : Char) (rest : List Char) (s : State) : Except Usage State :=
  match Switch.ofShort? scope letter, rest with
  | none, _ => .error .unknownArgument
  | some .help, _ => s.stop .displayHelp
  | some .version, _ => s.stop .displayVersion
  | some (.value p), [] => s.begin p
  | some (.value p), '=' :: v => s.attach p v
  | some (.value p), v => s.attach p v

def plain (scope : Scope) (arg : List Char) (s : State) : Except Usage State :=
  if scope.takesFile ∧ ¬s.fileGiven then
    s.settle.map fun s => { s with pending := some (.file, some arg), fileGiven := true }
  else if scope = .top ∧ ¬(s.trailing ∧ (Subcommand.ofName? arg).isSome) then
    .error .invalidSubcommand
  else .error .unknownArgument

def option (scope : Scope) (arg : List Char) (s : State) : Except Usage State :=
  let other :=
    match s.awaited? with
    | some p => .ok { s with pending := some (p, some arg) }
    | none => plain scope arg s
  match arg with
  | '-' :: '-' :: body => long scope body s
  | '-' :: c :: rest =>
    if s.awaited? = some .input ∧ looksNumeric (c :: rest) then other else short scope c rest s
  | _ => other

/-- Takes arguments up to the end or to a subcommand, which is returned with
the arguments after it. -/
def scan (scope : Scope) : List (List Char) → State →
    Except Usage (State × Option (Subcommand × List (List Char)))
  | [], s => .ok (s, none)
  | arg :: rest, s =>
    let subcommand :=
      if scope = .top ∧ ¬s.trailing ∧ s.awaited? = none then Subcommand.ofName? arg else none
    match subcommand with
    | some c => .ok (s, some (c, rest))
    | none =>
      let taken :=
        if s.trailing then plain scope arg s
        else if arg = "--".toList then .ok { s with trailing := true }
        else option scope arg s
      match taken with
      | .error u => .error u
      | .ok s => scan scope rest s

def help : List (List Char) → Usage
  | [] => .displayHelp
  | [name] => if (Subcommand.ofName? name).isSome then .displayHelp else .invalidSubcommand
  | _ => .invalidSubcommand

def command (scope : Scope) (s : State) : Command :=
  match scope with
  | .top | .repl => .repl
  | .exec => .exec s.file
  | .trace => .trace s.file s.input

def parse (args : List String) : Except Usage Config := do
  let (s, subcommand) ← scan .top (args.map String.toList) {}
  match subcommand with
  | none =>
    let s ← s.settle
    .error (if s.instructions.isSome then .missingSubcommand else .nothingGiven)
  | some (.help, rest) => .error (help rest)
  | some (.run scope, rest) =>
    let (t, _) ← scan scope rest {}
    let t ← t.settle
    let s ← s.settle
    .ok ⟨s.instructions.getD "AM0", command scope t⟩

end Arguments
end AbstractMachines
