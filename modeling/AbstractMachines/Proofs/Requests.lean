import AbstractMachines.Proofs.Numerals
import AbstractMachines.Shell

/-!
# What a line asks for

The requests that a shell takes, given by rules and without reference to how a line is
trimmed or split. Of a line without the blanks at its ends, the word before the first
space decides, and only `exec` has a use for what follows that space. A line with any
other first word is an unknown command. This includes a command with a tab behind it,
since only a space ends a word.
-/

namespace AbstractMachines

/-- The word before the first space of a text, and the text behind that space. -/
inductive Text.Headed : List Char → List Char → List Char → Prop where
  | alone {word : List Char} (h : ' ' ∉ word) : Headed word word []
  | spaced {word : List Char} (h : ' ' ∉ word) (rest : List Char) :
      Headed (word ++ ' ' :: rest) word rest

theorem Text.Headed.ne_nil {cs word rest : List Char} (h : Headed cs word rest) (hword : word ≠ []) :
    cs ≠ [] := by
  cases h with
  | alone => exact hword
  | spaced => simp

theorem Text.exists_headed (cs : List Char) : ∃ word rest, Headed cs word rest := by
  by_cases h : ' ' ∈ cs
  · obtain ⟨word, rest, rfl, hword⟩ := List.eq_append_cons_of_mem h
    exact ⟨word, rest, .spaced hword rest⟩
  · exact ⟨cs, [], .alone h⟩

namespace Shell.Request

inductive Command : String → (List Char → Request) → Prop where
  | exec : Command "exec" .exec
  | reset : Command "reset" fun _ => .reset
  | status : Command "status" fun _ => .status
  | help : Command "help" fun _ => .help
  | mark : Command "?" fun _ => .help
  | exit : Command "exit" fun _ => .exit

inductive Asks : List Char → Request → Prop where
  | nothing {line : List Char} (h : Text.Blank line) : Asks line .nothing
  | command {line core rest : List Char} {name : String} {make : List Char → Request}
      (ht : Text.Trims line core) (hw : Text.Headed core name.toList rest)
      (hc : Command name make) : Asks line (make rest)
  | unknown {line core word rest : List Char} (ht : Text.Trims line core) (hne : core ≠ [])
      (hw : Text.Headed core word rest) (h : ∀ name make, Command name make → name.toList ≠ word) :
      Asks line (.unknown core)

theorem ofLine_of_headed {line core word rest : List Char} (ht : Text.Trims line core)
    (hne : core ≠ []) (hw : Text.Headed core word rest) :
    ofLine line =
      if word = "exec".toList then exec rest
      else if word = "reset".toList then reset
      else if word = "status".toList then status
      else if word = "help".toList ∨ word = "?".toList then help
      else if word = "exit".toList then exit
      else unknown core := by
  unfold ofLine
  simp only [ht.trim_eq, if_neg hne]
  cases hw with
  | alone h =>
    rw [Text.splitOnce_of_not_mem h]
    rfl
  | spaced h rest =>
    rw [Text.splitOnce_append h]
    rfl

theorem Asks.ofLine_eq {line : List Char} {r : Request} (h : Asks line r) : ofLine line = r := by
  cases h with
  | nothing h => simp [ofLine, Text.trim_eq_nil_iff.2 h]
  | @command core rest name make ht hw hc =>
    have hname : name.toList ≠ [] := by cases hc <;> simp
    rw [ofLine_of_headed ht (hw.ne_nil hname) hw]
    cases hc <;> rfl
  | @unknown core word rest ht hne hw h =>
    have hword {name : String} {make : List Char → Request} (hc : Command name make) :
        word ≠ name.toList := (h name make hc).symm
    rw [ofLine_of_headed ht hne hw, if_neg (hword .exec), if_neg (hword .reset),
      if_neg (hword .status), if_neg (not_or.2 ⟨hword .help, hword .mark⟩), if_neg (hword .exit)]

theorem exists_asks (line : List Char) : ∃ r, Asks line r := by
  by_cases hblank : Text.Blank line
  · exact ⟨_, .nothing hblank⟩
  · have hne : Text.trim line ≠ [] := mt Text.trim_eq_nil_iff.1 hblank
    obtain ⟨word, rest, hw⟩ := Text.exists_headed (Text.trim line)
    by_cases h : ∃ name make, Command name make ∧ name.toList = word
    · obtain ⟨name, make, hc, rfl⟩ := h
      exact ⟨_, .command (Text.trims_trim line) hw hc⟩
    · refine ⟨_, .unknown (Text.trims_trim line) hne hw ?_⟩
      intro name make hc hname
      exact h ⟨name, make, hc, hname⟩

theorem ofLine_eq_iff {line : List Char} {r : Request} : ofLine line = r ↔ Asks line r := by
  constructor
  · rintro rfl
    obtain ⟨r, h⟩ := exists_asks line
    rwa [h.ofLine_eq]
  · exact Asks.ofLine_eq

end Shell.Request
end AbstractMachines
