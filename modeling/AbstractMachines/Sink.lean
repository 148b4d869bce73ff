import AbstractMachines.Error

/-!
# Byte sinks

A sink takes text as UTF-8. It may have room for a fixed number of bytes only;
a text that does not fit is taken as far as it fits, and the write fails.
-/

namespace AbstractMachines

structure Sink where
  bytes : ByteArray := .empty
  /-- How many more bytes fit; none if there is no limit. -/
  room : Option Nat := none

namespace Sink

def write (s : String) (k : Sink) : Except IoError Unit × Sink :=
  match k with
  | ⟨bytes, none⟩ => (.ok (), ⟨bytes ++ s.toUTF8, none⟩)
  | ⟨bytes, some room⟩ =>
    if s.toUTF8.size ≤ room then (.ok (), ⟨bytes ++ s.toUTF8, some (room - s.toUTF8.size)⟩)
    else (.error .writeZero, ⟨bytes ++ s.toUTF8.extract 0 room, some 0⟩)

end Sink
end AbstractMachines
