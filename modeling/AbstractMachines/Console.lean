import AbstractMachines.Model
import AbstractMachines.Payload
import AbstractMachines.Sink

/-!
# Lines typed by a user

A console pairs the lines that are still to be read with the sink that prompts
are written to. Bytes are split into lines at line feeds, and each line is
decoded by itself, so one that is not UTF-8 spoils no other. Carriage returns
at the end of a line are dropped.

As a source of words a console asks until it is given one. Lines that are no
words are rejected with a message; the end of the input, a line that cannot be
decoded and a sink that is full all end the asking.
-/

namespace AbstractMachines

inductive Line where
  | text (cs : List Char)
  | garbled
  deriving DecidableEq

namespace Line

def split : List UInt8 → List (List UInt8)
  | [] => []
  | b :: bs =>
    if b = 10 then [] :: split bs
    else
      match split bs with
      | [] => [[b]]
      | l :: ls => (b :: l) :: ls

def decode? (bytes : List UInt8) : Option (List Char) :=
  bytes.toByteArray.utf8Decode?.map Array.toList

def ofBytes (bytes : List UInt8) : Line :=
  match decode? bytes with
  | some cs => text (Text.dropWhileEnd (· == '\r') cs)
  | none => garbled

def all (bytes : List UInt8) : List Line := (split bytes).map ofBytes

end Line

structure Console where
  unread : List Line
  sink : Sink := {}

namespace Console

def write (s : String) (c : Console) : Except IoError Unit × Console :=
  match c with
  | ⟨unread, sink⟩ =>
    match sink.write s with
    | (r, sink) => (r, ⟨unread, sink⟩)

def readLine (prompt : String) (c : Console) : Except IoError (Option (List Char)) × Console :=
  match c.write prompt with
  | (.error e, c) => (.error e, c)
  | (.ok _, ⟨[], sink⟩) => (.ok none, ⟨[], sink⟩)
  | (.ok _, ⟨.text cs :: rest, sink⟩) => (.ok (some cs), ⟨rest, sink⟩)
  | (.ok _, ⟨.garbled :: rest, sink⟩) => (.error .invalidData, ⟨rest, sink⟩)

def inputPrompt : String := "Input: "

def rejection (line : List Char) : String :=
  "Error: invalid input '" ++ String.ofList (Text.trim line) ++ "'\n"

theorem write_unread (s : String) (c : Console) : (c.write s).2.unread = c.unread := rfl

theorem readLine_shorter {prompt : String} {c d : Console} {line : List Char}
    (h : c.readLine prompt = (.ok (some line), d)) : d.unread.length < c.unread.length := by
  have hw := write_unread prompt c
  rw [readLine] at h
  split at h <;> simp_all
  rw [← hw, ← h.2]
  simp

theorem readLine_le (prompt : String) (c : Console) :
    (c.readLine prompt).2.unread.length ≤ c.unread.length := by
  have hw := write_unread prompt c
  rw [readLine]
  split <;> simp_all <;> simp [← hw]

def ask (c : Console) : Option Word × Console :=
  match h : c.readLine inputPrompt with
  | (.error _, d) => (none, d)
  | (.ok none, d) => (none, d)
  | (.ok (some line), d) =>
    match Word.ofText? (Text.trim line) with
    | some v => (some v, d)
    | none =>
      match hw : d.write (rejection line) with
      | (.error _, e) => (none, e)
      | (.ok _, e) =>
        have : e.unread.length < c.unread.length := by
          have hu := write_unread (rejection line) d
          rw [hw] at hu
          rw [hu]
          exact readLine_shorter h
        ask e
termination_by c.unread.length

theorem ask_le (c : Console) : c.ask.2.unread.length ≤ c.unread.length := by
  fun_induction ask c with
  | case1 c e d h => simpa [h] using readLine_le inputPrompt c
  | case2 c d h => simpa [h] using readLine_le inputPrompt c
  | case3 c line d h v hv => exact Nat.le_of_lt (readLine_shorter h)
  | case4 c line d h hv e f hw =>
    have hu := write_unread (rejection line) d
    rw [hw] at hu
    exact hu ▸ Nat.le_of_lt (readLine_shorter h)
  | case5 c line d h hv u e hw hlt ih => exact Nat.le_trans ih (Nat.le_of_lt hlt)

instance : Source Console where
  next := ask

end Console
end AbstractMachines
