import AbstractMachines.Proofs.Dialogue
import AbstractMachines.Proofs.Encoding
import AbstractMachines.Proofs.Requests

/-!
# Shells drive sessions

Requests and the words that instructions read come in on the same lines, and which
line is which depends on the machine. A line is read as input exactly if an
instruction that reads, and whose cell the machine has, is still waiting for a word;
any other line is a request, and its first word says which one. The turns of a dialogue
are all the lines up to an `exit`, and the machine at the end is the one that the turns
lead to: a request to execute an instruction executes it in a session, with the word
from its input lines, and a reset starts anew. The values put out on the way are the
ones shown.
-/

namespace AbstractMachines

namespace Line

theorem asked_next_iff {lines taken more : List Line} (hclear : garbled ∉ lines)
    (h : asked lines = taken ++ more)
    (hnext : more ++ lines.drop (asked lines).length ≠ []) :
    more ≠ [] ↔ ∀ l ∈ taken, l.word? = none := by
  fun_induction asked lines generalizing taken with
  | case1 => simp_all
  | case2 rest => simp at hclear
  | case3 cs rest hv =>
    rcases taken with _ | ⟨l, taken⟩
    · simp [show more = _ from h.symm]
    · obtain ⟨v, hv⟩ := Option.isSome_iff_exists.1 hv
      simp_all
  | case4 cs rest hv ih =>
    rcases taken with _ | ⟨l, taken⟩
    · simp [show more = _ from h.symm]
    · simp_all

end Line

namespace Shell

variable {μ ι : Type} [InstructionSet ι] [Model μ ι]

/-- An instruction that reads, and whose cell the machine has, is to be executed and
finds no word on the lines `taken`. -/
def Waiting [ReadingSet ι] (m : μ) (command : List Char) (taken : List Line) : Prop :=
  (∃ arg i a, Request.Asks command (.exec arg) ∧ InstructionSet.parse (Text.trim arg) = .ok i ∧
    ReadingSet.isRead i = true ∧ Model.act i m = .read m a) ∧
  ∀ l ∈ taken, l.word? = none

def replay (m : μ) (turns : List Turn) : μ := turns.foldl (fun m t => t.machine m) m

def Turn.output? (t : Turn) (m : μ) : Option Word :=
  match t.request with
  | .exec arg =>
    match (Session.executeLine arg m t.input).result with
    | .ok output => output
    | .error _ => none
  | _ => none

def outputs (m : μ) : List Turn → List Word
  | [] => []
  | t :: ts => (t.output? m).toList ++ outputs (t.machine m) ts

section Lines

theorem record_result {m : μ} {lines : List Line} (hclear : Line.garbled ∉ lines) :
    (record m lines).result = .ok () := by
  fun_induction record m lines with
  | case1 m asking => rfl
  | case2 m rest asking => simp at hclear
  | case3 m command rest t left ht asking => rfl
  | case4 m command rest t left ht r asking ih =>
    exact ih fun h => hclear (List.mem_cons_of_mem _ (List.mem_of_mem_drop h))

theorem record_lines {m : μ} {lines : List Line} (hclear : Line.garbled ∉ lines) :
    (record m lines).turns.flatMap Turn.lines ++ (record m lines).unread = lines := by
  fun_induction record m lines with
  | case1 m asking => rfl
  | case2 m rest asking => simp at hclear
  | case3 m command rest t left ht asking =>
    simp only [List.flatMap_cons, List.flatMap_nil, Turn.lines, List.append_nil, List.cons_append]
    exact congrArg _ (Turn.inputs_append_drop m command rest)
  | case4 m command rest t left ht r asking ih =>
    have h := ih fun h => hclear (List.mem_cons_of_mem _ (List.mem_of_mem_drop h))
    simp only [List.flatMap_cons, Turn.lines, List.cons_append, List.append_assoc, r, h]
    exact congrArg _ (Turn.inputs_append_drop m command rest)

theorem record_machine {m : μ} {lines : List Line} :
    (record m lines).machine = replay m (record m lines).turns := by
  fun_induction record m lines with
  | case1 m asking => rfl
  | case2 m rest asking => rfl
  | case3 m command rest t left ht asking => rfl
  | case4 m command rest t left ht r asking ih => exact ih

theorem exit_is_last (m : μ) (lines : List Line) (before later : List Turn) (t : Turn) :
    (record m lines).turns = before ++ t :: later → Request.Asks t.command .exit → later = [] := by
  fun_induction record m lines generalizing before with
  | case1 m asking => simp
  | case2 m rest asking => simp
  | case3 m command rest t left ht asking =>
    intro h hexit
    rcases before with _ | ⟨b, before⟩ <;> simp_all
  | case4 m command rest t left ht r asking ih =>
    intro h hexit
    rcases before with _ | ⟨b, before⟩
    · obtain ⟨rfl, -⟩ := List.cons.inj h
      exact absurd hexit.ofLine_eq ht
    · exact ih before (List.cons.inj h).2 hexit

theorem record_unread {m : μ} {lines : List Line} (hclear : Line.garbled ∉ lines)
    (h : ∀ t ∈ (record m lines).turns, ¬Request.Asks t.command .exit) :
    (record m lines).unread = [] := by
  fun_induction record m lines with
  | case1 m => rfl
  | case2 m rest => simp at hclear
  | case3 m command rest t left ht =>
    exact absurd (Request.ofLine_eq_iff.1 ht) (h t List.mem_cons_self)
  | case4 m command rest t left ht r asking ih =>
    exact ih (fun h => hclear (List.mem_cons_of_mem _ (List.mem_of_mem_drop h)))
      fun t' ht' => h t' (List.mem_cons_of_mem _ ht')

theorem awaits_iff_waiting [ReadingSet ι] [LawfulModel μ] {m : μ} {command : List Char} :
    Turn.awaits m command = true ↔ Waiting m command [] := by
  constructor
  · intro h
    obtain ⟨arg, hr, ha⟩ := Turn.request_of_awaits h
    obtain ⟨i, n, a, hp, hact⟩ := Session.awaits_iff.1 ha
    obtain ⟨rfl, hread⟩ := (hact ▸ LawfulModel.act_orderly i m : (Action.read n a).Orderly m _)
    exact ⟨⟨arg, i, a, Request.ofLine_eq_iff.1 hr, hp, hread, hact⟩, by simp⟩
  · rintro ⟨⟨arg, i, a, hr, hp, -, hact⟩, -⟩
    simpa [Turn.awaits, hr.ofLine_eq] using Session.awaits_iff.2 ⟨i, m, a, hp, hact⟩

theorem turn_next_iff [ReadingSet ι] [LawfulModel μ] {m : μ} {command : List Char}
    {rest taken more : List Line} (hclear : Line.garbled ∉ rest)
    (h : (Turn.take m command rest).inputs = taken ++ more)
    (hnext : more ++ rest.drop (Turn.take m command rest).inputs.length ≠ []) :
    more ≠ [] ↔ Waiting m command taken := by
  cases ha : Turn.awaits m command with
  | false =>
    have hnot : ¬Waiting m command taken := fun hw => by
      simp [awaits_iff_waiting.2 ⟨hw.1, by simp⟩] at ha
    have hnil : taken = [] ∧ more = [] := by simpa [Turn.take, ha] using h
    simp [hnil.2, hnot]
  | true =>
    simp only [Turn.take, ha, if_true] at h hnext
    rw [Line.asked_next_iff hclear h hnext]
    exact ⟨fun hw => ⟨(awaits_iff_waiting.1 ha).1, hw⟩, fun hw => hw.2⟩

theorem record_next_iff [ReadingSet ι] [LawfulModel μ] (m : μ) (lines : List Line)
    (before later : List Turn) (t : Turn) (taken more : List Line) :
    Line.garbled ∉ lines → (record m lines).turns = before ++ t :: later →
    t.inputs = taken ++ more →
    more ++ (later.flatMap Turn.lines ++ (record m lines).unread) ≠ [] →
    (more ≠ [] ↔ Waiting (replay m before) t.command taken) := by
  fun_induction record m lines generalizing before with
  | case1 m asking => simp
  | case2 m rest asking => simp
  | case3 m command rest t' left ht' asking =>
    intro hclear h ht hnext
    rcases before with _ | ⟨b, before⟩
    · obtain ⟨rfl, rfl⟩ := List.cons.inj h
      exact turn_next_iff (fun h => hclear (List.mem_cons_of_mem _ h)) ht hnext
    · simp at h
  | case4 m command rest t' left ht' r asking ih =>
    intro hclear h ht hnext
    have hrest : Line.garbled ∉ rest := fun h => hclear (List.mem_cons_of_mem _ h)
    have hleft : Line.garbled ∉ left := fun h => hrest (List.mem_of_mem_drop h)
    -- the lines after the first turn are those of the later turns and the unread ones
    rcases before with _ | ⟨b, before⟩
    · obtain ⟨rfl, rfl⟩ := List.cons.inj h
      rw [record_lines hleft] at hnext
      exact turn_next_iff hrest ht hnext
    · obtain ⟨rfl, hr⟩ := List.cons.inj h
      exact ih before hleft hr ht hnext

end Lines

section Outputs

def isOutput (s : String) : Bool := "Output: ".toList.isPrefixOf s.toList

theorem isOutput_outputLine (v : Word) : isOutput (outputLine v) = true := by
  simp [isOutput, outputLine]

def isOther (s : String) : Bool := s.toList.head?.any (· != 'O')

theorem isOther_append {s : String} (h : isOther s = true) (t : String) :
    isOther (s ++ t) = true := by
  cases hs : s.toList with
  | nil => simp [isOther, hs] at h
  | cons c cs => simpa [isOther, hs] using h

theorem isOutput_of_isOther {s : String} (h : isOther s = true) : isOutput s = false := by
  cases hs : s.toList with
  | nil => simp [isOther, hs] at h
  | cons c cs =>
    have hc : ('O' == c) = false := by
      refine beq_false_of_ne fun hc => ?_
      simp [isOther, hs, ← hc] at h
    have ho : "Output: ".toList = 'O' :: "utput: ".toList := rfl
    rw [isOutput, hs, ho, List.isPrefixOf_cons_cons, hc]
    rfl

theorem isOutput_farewell : isOutput farewell = false :=
  isOutput_of_isOther (by simp [isOther, farewell])

omit [InstructionSet ι] [Model μ ι] in
theorem filter_askNotes (m : μ) (lines : List Line) :
    ((askNotes m lines).map (·.text)).filter isOutput = [] := by
  have hask : isOutput Console.inputPrompt = false :=
    isOutput_of_isOther (by simp [isOther, Console.inputPrompt])
  have hreject (cs : List Char) : isOutput (Console.rejection cs) = false :=
    isOutput_of_isOther (isOther_append (isOther_append (by simp [isOther]) _) _)
  fun_induction askNotes m lines with
  | case1 => simp [hask]
  | case2 rest => simp [hask]
  | case3 cs rest hv => simp [hask]
  | case4 cs rest hv ih => simp [hask, hreject, ih]

variable (hstatus : ∀ m : μ, isOutput (Model.status m ++ "\n") = false)

include hstatus in
theorem filter_answer? (t : Turn) (m : μ) :
    (t.answer? m).toList.filter isOutput = (t.output? m).toList.map outputLine := by
  unfold Turn.answer? Turn.output?
  cases t.request with
  | nothing | reset => rfl
  | exec arg =>
    cases hr : (Session.executeLine arg m t.input).result with
    | ok output => cases output <;> simp [answerTo, hr, isOutput_outputLine]
    | error e =>
      have h : isOutput ("Error: " ++ e.message ++ "\n") = false :=
        isOutput_of_isOther (isOther_append (isOther_append (by simp [isOther]) _) _)
      simp [answerTo, hr, h]
  | status => simp [hstatus]
  | help =>
    have h : isOther helpText = true := by
      delta helpText
      iterate 4 apply isOther_append
      simp [isOther]
    simp [isOutput_of_isOther h]
  | exit => simp [isOutput_farewell]
  | unknown line =>
    have h : isOutput ("*** Unknown command: " ++ String.ofList line ++ "\n") = false :=
      isOutput_of_isOther (isOther_append (isOther_append (by simp [isOther]) _) _)
    simp [h]

include hstatus in
theorem filter_turn (m : μ) (command : List Char) (rest : List Line) :
    ((Turn.notes m command rest).map (·.text)).filter isOutput =
      ((Turn.take m command rest).output? m).toList.map outputLine := by
  rw [← filter_answer? hstatus, Turn.notes, List.map_append, List.filter_append]
  have hask : ((if Turn.awaits m command then askNotes m rest else []).map (·.text)).filter
      isOutput = [] := by
    split
    · exact filter_askNotes m rest
    · rfl
  rw [hask, List.nil_append]
  cases (Turn.take m command rest).answer? m <;> rfl

variable (hprompt : isOutput (prompt (InstructionSet.name ι)) = false)

include hstatus hprompt in
theorem filter_record (m : μ) (lines : List Line) :
    ((record m lines).notes.map (·.text)).filter isOutput =
      (outputs m (record m lines).turns).map outputLine := by
  have hend : isOutput "\n" = false := isOutput_of_isOther (by simp [isOther])
  fun_induction record m lines with
  | case1 m asking => simp [asking, hprompt, hend, isOutput_farewell, outputs]
  | case2 m rest asking => simp [asking, hprompt, outputs]
  | case3 m command rest t left ht asking =>
    simp [asking, hprompt, outputs, filter_turn hstatus, t]
  | case4 m command rest t left ht r asking ih =>
    simp only [List.map_cons, List.map_append, List.filter_cons, List.filter_append, asking, hprompt,
      filter_turn hstatus, outputs, r, ih, t]
    rfl

end Outputs

end Shell

theorem Kind.isOutput_prompt (kind : Kind) :
    Shell.isOutput (Shell.prompt (InstructionSet.name kind.Instruction)) = false := by
  apply Shell.isOutput_of_isOther
  cases kind <;> exact Shell.isOther_append (by simp [Shell.isOther, InstructionSet.name]) _

theorem Kind.isOutput_status (kind : Kind) (m : kind.Machine) :
    Shell.isOutput (Model.status m ++ "\n") = false := by
  apply Shell.isOutput_of_isOther
  cases kind with
  | am0 =>
    iterate 6 apply Shell.isOther_append
    simp [Shell.isOther]
  | am1 =>
    iterate 8 apply Shell.isOther_append
    simp [Shell.isOther]

/-- The first instruction has no cell to read into, so the line after it is a request. -/
def errand : String :=
  "exec READ(global,1)\nexec INIT 1\n\nexec READ(global,1)\nx\n 7\nexec WRITE(global,1)\n" ++
    "status\nresets\n?\n reset now\nexec LIT 2\nexit\nhelp\n"

def errandStart : List Shell.Turn :=
  [⟨"exec READ(global,1)".toList, []⟩, ⟨"exec INIT 1".toList, []⟩, ⟨[], []⟩]

def errandAsked : Shell.Turn := ⟨"exec READ(global,1)".toList, [.text ['x'], .text [' ', '7']]⟩

def errandShown : List Shell.Turn :=
  [⟨"exec WRITE(global,1)".toList, []⟩, ⟨"status".toList, []⟩, ⟨"resets".toList, []⟩,
    ⟨"?".toList, []⟩]

def errandEnd : List Shell.Turn :=
  [⟨" reset now".toList, []⟩, ⟨"exec LIT 2".toList, []⟩, ⟨"exit".toList, []⟩]

end AbstractMachines
