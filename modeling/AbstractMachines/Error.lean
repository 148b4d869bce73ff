import AbstractMachines.Decimal

/-!
# What can go wrong

Each kind of failure names its cause; the wording is fixed by `message`.
Runtime errors carry the counter of the instruction that failed.
-/

namespace AbstractMachines

inductive ParseError where
  | unknownInstruction (token : String)
  | invalidPayload (token : String)
  deriving DecidableEq

namespace ParseError

def token : ParseError → String
  | unknownInstruction t | invalidPayload t => t

def message : ParseError → String
  | unknownInstruction t => "unknown instruction '" ++ t ++ "'"
  | invalidPayload t => "invalid payload '" ++ t ++ "'"

end ParseError

/-- The first line of a program that does not parse, counted from one. -/
structure ProgramError where
  line : Nat
  cause : ParseError
  deriving DecidableEq

def ProgramError.message (e : ProgramError) : String :=
  "line " ++ Nat.repr e.line ++ ": " ++ e.cause.message

inductive RuntimeError where
  | stackUnderflow (counter : Word) (needed found : Nat)
  | missingAddress (counter address : Word)
  | inputExhausted (counter : Word)
  | divisionByZero (counter : Word)
  | stackOverflow (counter : Word) (limit : Nat)
  deriving DecidableEq

namespace RuntimeError

def counter : RuntimeError → Word
  | stackUnderflow c _ _ | missingAddress c _ | inputExhausted c | divisionByZero c
  | stackOverflow c _ => c

def message : RuntimeError → String
  | stackUnderflow c needed found =>
    "stack underflow at instruction " ++ c.text ++ ": needs " ++ Nat.repr needed ++
      " value(s), found " ++ Nat.repr found
  | missingAddress c a => "missing memory address " ++ a.text ++ " at instruction " ++ c.text
  | inputExhausted c => "input exhausted at instruction " ++ c.text
  | divisionByZero c => "division by zero at instruction " ++ c.text
  | stackOverflow c limit =>
    "stack overflow at instruction " ++ c.text ++ ": limit is " ++ Nat.repr limit ++ " slots"

end RuntimeError

inductive IoError where
  | writeZero
  | invalidData
  | notFound
  | isDirectory
  | notDirectory
  | nameTooLong
  | other (description : String)
  deriving DecidableEq

def IoError.message : IoError → String
  | writeZero => "failed to write whole buffer"
  | invalidData => "stream did not contain valid UTF-8"
  | notFound => "No such file or directory (os error 2)"
  | isDirectory => "Is a directory (os error 21)"
  | notDirectory => "Not a directory (os error 20)"
  | nameTooLong => "File name too long (os error 36)"
  | other description => description

inductive SessionError where
  | parse (e : ParseError)
  | program (e : ProgramError)
  | runtime (e : RuntimeError)
  | io (e : IoError)
  deriving DecidableEq

namespace SessionError

def message : SessionError → String
  | parse e => e.message
  | program e => e.message
  | runtime e => e.message
  | io e => "i/o error: " ++ e.message

def chain : SessionError → List String
  | parse e => [e.message]
  | program e => [e.message, e.cause.message]
  | runtime e => [e.message]
  | io e => [(io e).message, e.message]

end SessionError
end AbstractMachines
