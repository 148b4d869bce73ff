import AbstractMachines.CommandLine
import AbstractMachines.Proofs.Dialogue
import AbstractMachines.Proofs.Encoding
import AbstractMachines.Proofs.Tapes

/-!
# Programs run from the command line

A program that runs from the command line shares the standard output with the
prompts that its input is asked for with. What appears there is a conversation: a
prompt for each line that is read, a rejection for each of these that holds no
word, a prompt without an answer at the end of the input, and in between the
outputs. Without all that, the program runs as it does on a tape of the words the
lines hold.
-/

namespace AbstractMachines

inductive Saying where
  | prompt
  | rejection (answer : List Char)
  | output (v : Word)
  deriving DecidableEq

namespace Saying

def text : Saying → String
  | prompt => "Input: "
  | rejection answer => "Error: invalid input '" ++ String.ofList answer ++ "'\n"
  | output v => "Output: " ++ v.text ++ "\n"

def value? : Saying → Option Word
  | output v => some v
  | _ => none

def bytes (said : List Saying) : ByteArray := (String.join (said.map text)).toUTF8

theorem write_text (said : List Saying) (s : Saying) :
    Sink.write s.text ⟨bytes said, none⟩ = (.ok (), ⟨bytes (said ++ [s]), none⟩) := by
  simp [Sink.write, bytes, String.join_append]

/-- `Conversation answers said unread outputs`: with `answers` to give, a program has
said `said` and put out `outputs`, and the answers `unread` are left. -/
inductive Conversation (answers : List (List Char)) :
    List Saying → List (List Char) → List Word → Prop where
  | start : Conversation answers [] answers []
  | say {said unread outputs} (v : Word) (h : Conversation answers said unread outputs) :
      Conversation answers (said ++ [output v]) unread (outputs ++ [v])
  | accept {said a unread outputs v} (hv : Word.ofText? a = some v)
      (h : Conversation answers said (a :: unread) outputs) :
      Conversation answers (said ++ [prompt]) unread outputs
  | reject {said a unread outputs} (hv : Word.ofText? a = none)
      (h : Conversation answers said (a :: unread) outputs) :
      Conversation answers (said ++ [prompt, rejection a]) unread outputs
  | starve {said outputs} (h : Conversation answers said [] outputs) :
      Conversation answers (said ++ [prompt]) [] outputs

theorem Conversation.values {answers unread : List (List Char)} {said : List Saying}
    {outputs : List Word} (h : Conversation answers said unread outputs) :
    said.filterMap value? = outputs := by
  induction h with
  | start => rfl
  | say v h ih => simp [ih, value?]
  | accept hv h ih => simp [ih, value?]
  | reject hv h ih => simp [ih, value?]
  | starve h ih => simp [ih, value?]

end Saying

namespace Console

open Saying

def showing (said : List Saying) (lines : List (List Char)) : Console :=
  ⟨lines.map .text, ⟨bytes said, none⟩⟩

theorem readLine_showing (said : List Saying) (lines : List (List Char)) :
    (showing said lines).readLine inputPrompt =
      (.ok lines.head?, showing (said ++ [prompt]) lines.tail) := by
  have hw : Sink.write inputPrompt ⟨bytes said, none⟩ = _ := write_text said prompt
  rw [showing, readLine_of_ok hw]
  cases lines <;> rfl

theorem ask_showing_nil (said : List Saying) :
    (showing said []).ask = (none, showing (said ++ [prompt]) []) := by
  rw [ask_unfold, readLine_showing]
  rfl

theorem ask_showing_accept {line : List Char} {v : Word}
    (hv : Word.ofText? (Text.trim line) = some v) (said : List Saying) (rest : List (List Char)) :
    (showing said (line :: rest)).ask = (some v, showing (said ++ [prompt]) rest) := by
  rw [ask_unfold, readLine_showing]
  simp only [List.head?_cons, List.tail_cons, hv]

theorem ask_showing_reject {line : List Char}
    (hv : Word.ofText? (Text.trim line) = none) (said : List Saying) (rest : List (List Char)) :
    (showing said (line :: rest)).ask =
      (showing (said ++ [prompt, .rejection (Text.trim line)]) rest).ask := by
  have hr : Sink.write (rejection line) ⟨bytes (said ++ [prompt]), none⟩ = _ :=
    write_text (said ++ [prompt]) (.rejection (Text.trim line))
  rw [ask_unfold, readLine_showing]
  simp only [List.head?_cons, List.tail_cons, hv, showing, write, hr, List.append_assoc,
    List.cons_append, List.nil_append]

/-- A console shows what happens on a tape if it holds a conversation with the
outputs on the tape, and the words on the tape are those of its unread lines. -/
def Shows (answers : List (List Char)) (t : Tape) (c : Console) : Prop :=
  ∃ said lines, c = showing said lines ∧
    Conversation answers said (lines.map Text.trim) t.written.toList ∧
    t.unread = (lines.map Text.trim).filterMap Word.ofText?

theorem ask_shows {answers : List (List Char)} {t : Tape} {c : Console} (h : Shows answers t c) :
    c.ask.1 = (Source.next t).1 ∧ Shows answers (Source.next t).2 c.ask.2 := by
  obtain ⟨said, lines, rfl, htalk, hwords⟩ := h
  obtain ⟨unread, written⟩ := t
  -- a rejected line leaves the tape as it is, so the induction is on the unread lines
  induction lines generalizing said with
  | nil =>
    obtain rfl : unread = [] := hwords
    rw [ask_showing_nil]
    exact ⟨rfl, _, [], rfl, htalk.starve, rfl⟩
  | cons line rest ih =>
    cases hv : Word.ofText? (Text.trim line) with
    | none =>
      rw [ask_showing_reject hv]
      refine ih _ (htalk.reject hv) ?_
      simpa [hv] using hwords
    | some v =>
      obtain rfl : unread = v :: (rest.map Text.trim).filterMap Word.ofText? := by
        simpa [hv] using hwords
      rw [ask_showing_accept hv]
      exact ⟨rfl, _, rest, rfl, htalk.accept hv, rfl⟩

theorem sameWords_shows (answers : List (List Char)) : SameWords (Shows answers) where
  value h := (ask_shows h).1
  rest h := (ask_shows h).2

theorem emit_shows {answers : List (List Char)} {t : Tape} {c : Console} (v : Word)
    (h : Shows answers t c) : Shows answers (Tape.emit v t) (CommandLine.emit v c) := by
  obtain ⟨said, lines, rfl, htalk, hwords⟩ := h
  have hw : Sink.write (Shell.outputLine v) ⟨bytes said, none⟩ = _ := write_text said (.output v)
  refine ⟨said ++ [.output v], lines, ?_, ?_, hwords⟩
  · rw [CommandLine.emit, showing, write, hw]
    rfl
  · simpa [Tape.emit] using htalk.say v

end Console

namespace Execution

variable {μ ι σ : Type} [Model μ ι] [Source σ]

theorem ending_of_pending {k fuel : Nat} (hk : k < fuel) {x : Execution μ ι σ} {i : ι}
    {e : RuntimeError} {n : μ} {t : σ} (h : (x.after k).pending? = some i)
    (he : execute i (x.after k).machine (x.after k).input = ⟨.error e, n, t⟩) :
    x.ending fuel = .failed e := by
  obtain ⟨fuel, rfl⟩ := Nat.exists_eq_add_of_le' (Nat.zero_lt_of_lt hk)
  induction k generalizing fuel x with
  | zero => exact ending_succ_of_error h he fuel
  | succ k ih =>
    rcases next_cases x with hx | ⟨j, o, m, s, hx, hj⟩ | ⟨j, e', m, s, hx, hj⟩
    · rw [after_succ_of_over hx] at h
      simp [pending?] at h
    · rw [after_succ_of_ok hx hj] at h he
      obtain ⟨fuel, rfl⟩ := Nat.exists_eq_add_of_le' (show 1 ≤ fuel by omega)
      rw [ending_succ_of_ok hx hj]
      exact ih h he fuel (by omega)
    · rw [after_succ_of_error hx hj] at h
      simp [pending?] at h

theorem ending_of_no_input [ReadingSet ι] [LawfulModel μ] {k fuel : Nat} (hk : k < fuel)
    {x : Execution μ ι (List Word)} (hx : x.input = []) {i : ι} {n : μ} {a : Word}
    (h : (x.after k).pending? = some i) (ha : Model.act i (x.after k).machine = .read n a) :
    x.ending fuel = .failed (.inputExhausted (Model.counter (x.after k).machine)) := by
  have hinput : (x.after k).input = [] := by
    obtain ⟨taken, hw, -⟩ := words_consumed k x
    rw [hx] at hw
    exact (List.append_eq_nil_iff.1 hw.symm).2
  have hn : n = (x.after k).machine :=
    (ha ▸ LawfulModel.act_orderly i (x.after k).machine : (Action.read n a).Orderly _ _).1
  have hs : Source.next ([] : List Word) = (none, []) := rfl
  rw [← hn]
  exact ending_of_pending hk h (by rw [hinput]; exact execute_of_starved ha hs)

end Execution

namespace CommandLine

open Saying

variable {μ ι : Type} [InstructionSet ι] [Model μ ι]

/-- What may be reported on a program text, given the answers to its prompts: how a
session on a tape of the words among the answers ended, and the conversation. -/
def ReportsOn (m : μ) (fuel : Nat) (text : String) (answers : List (List Char))
    (report : Option Report) : Prop :=
  match Program.parse (ι := ι) text.toList with
  | .error e => report = some ⟨1, .empty, ("error: " ++ e.message ++ "\n").toUTF8⟩
  | .ok _ =>
    let r := Session.run fuel Tape.emit text.toList m ⟨answers.filterMap Word.ofText?, #[]⟩
    ∃ said unread, Conversation answers said unread r.input.written.toList ∧
      said.filterMap value? = r.input.written.toList ∧
      unread.filterMap Word.ofText? = r.input.unread ∧
      match r.result with
      | none => report = none
      | some (.ok ()) => report = some ⟨0, bytes said, .empty⟩
      | some (.error (.runtime e)) =>
        report = some ⟨3, bytes said, ("runtime error: " ++ e.message ++ "\n").toUTF8⟩
      | some (.error _) => False

omit [InstructionSet ι] in
theorem run_shows (p : Program ι) (m : μ) (lines : List (List Char)) (fuel : Nat) :
    let answers := lines.map Text.trim
    let tape : Tape := ⟨answers.filterMap Word.ofText?, #[]⟩
    let shown := (Execution.start p m (Console.mk (lines.map .text) {})).run emit fuel
    let ran := (Execution.start p m tape).run Tape.emit fuel
    shown.1 = ran.1 ∧ Console.Shows answers ran.2.input shown.2.input := by
  intro answers tape shown ran
  have hlinked : Execution.Linked id Eq (Console.Shows answers) (Execution.start p m tape)
      (Execution.start p m (Console.mk (lines.map .text) {})) :=
    ⟨by simp [Execution.start, Program.map], rfl, ⟨[], lines, rfl, .start, rfl⟩, rfl⟩
  obtain ⟨hending, h⟩ := Execution.run_linked (fun m n h => by rw [h])
    (Console.sameWords_shows answers) (fun i m n h => h ▸ Action.alike_refl _)
    (fun v s t h => Console.emit_shows v h) fuel hlinked
  exact ⟨hending, h.input⟩

theorem exec_reports {file : Option String} {w : World} {text : String}
    {lines : List (List Char)} (hsource : source file w = .ok (text.toList, lines.map .text))
    (m : μ) (fuel : Nat) :
    ReportsOn m fuel text (lines.map Text.trim) (exec fuel file m w) := by
  unfold ReportsOn
  cases hp : Program.parse (ι := ι) text.toList with
  | error e => simp [exec, hsource, Session.run, hp, errorReport, SessionError.message]
  | ok p =>
    obtain ⟨hending, said, unread, hconsole, htalk, hwords⟩ := run_shows p m lines fuel
    dsimp only
    simp only [exec, hsource, Session.run_of_parse hp, hending, hconsole]
    refine ⟨said, unread.map Text.trim, htalk, htalk.values, hwords.symm, ?_⟩
    cases ((Execution.start p m
      (Tape.mk ((lines.map Text.trim).filterMap Word.ofText?) #[])).run Tape.emit fuel).1 with
    | halted => rfl
    | failed e => simp [Session.verdict, errorReport, Console.showing, SessionError.message]
    | unfinished => rfl

theorem ReportsOn.of_failed {m : μ} {fuel : Nat} {text : String} {answers : List (List Char)}
    {report : Option Report} (h : ReportsOn m fuel text answers report) {p : Program ι}
    (hp : Program.parse text.toList = .ok p) {e : RuntimeError}
    (he : (Execution.start p m (answers.filterMap Word.ofText?)).ending fuel = .failed e) :
    ∃ stdout, report = some ⟨3, stdout, ("runtime error: " ++ e.message ++ "\n").toUTF8⟩ := by
  have hresult : (Session.run fuel Tape.emit text.toList m
      ⟨answers.filterMap Word.ofText?, #[]⟩).result = some (.error (.runtime e)) := by
    have hrun := (Execution.start p m (answers.filterMap Word.ofText?)).run_onTape fuel #[]
    rw [Session.run_of_parse hp]
    exact congrArg (Session.verdict ()) ((congrArg Prod.fst hrun).trans he)
  simp only [ReportsOn, hp, hresult] at h
  obtain ⟨said, -, -, -, -, h⟩ := h
  exact ⟨Saying.bytes said, h⟩

theorem source_file {w : World} {path : String} {text : String}
    (h : w.read path = .ok text.toUTF8.data.toList) :
    source (some path) w = .ok (text.toList, Line.all w.stdin) := by
  have hdecode : decode text.toUTF8.data.toList = .ok text.toList := by
    rw [decode, Text.toUTF8_data, Line.decode?_encode]
  simp only [source, h, Except.bind, hdecode]

theorem source_stdin {w : World} {text : String} (h : w.stdin = text.toUTF8.data.toList) :
    source none w = .ok (text.toList, []) := by
  rw [source, h, decode, Text.toUTF8_data, Line.decode?_encode]

theorem source_unreadable {w : World} {path : String}
    (h : ∀ text : String, w.read path ≠ .ok text.toUTF8.data.toList) :
    ∃ e : IoError, source (some path) w = .error ("error: cannot read '" ++ path ++ "': " ++ e.message) := by
  cases hr : w.read path with
  | error e => exact ⟨e, by simp [source, hr, Except.bind]⟩
  | ok bytes =>
    cases hd : Line.decode? bytes with
    | none => exact ⟨.invalidData, by simp [source, hr, Except.bind, decode, hd]⟩
    | some cs =>
      refine absurd hr (h (String.ofList cs) ∘ fun hr => hr.trans ?_)
      rw [Text.toUTF8_data, String.toList_ofList, Line.decode?_eq_some_iff.1 hd]

theorem run_unknown {name : String}
    (h : ∀ kind : Kind, Text.sameName (InstructionSet.name kind.Instruction) name = false)
    (fuel : Nat) (command : Command) (w : World) :
    run fuel ⟨name, command⟩ w =
      some (failure 2 .empty ("error: " ++ (UnknownName.mk name ["AM0", "AM1"]).message)) := by
  have h0 : Text.sameName "AM0" name = false := h .am0
  have h1 : Text.sameName "AM1" name = false := h .am1
  simp [run, Registry.find, Registry.builtin, Registry.names, h0, h1]

theorem run_known {kind : Kind} {name : String}
    (h : Text.sameName (InstructionSet.name kind.Instruction) name = true)
    (fuel : Nat) (command : Command) (w : World) :
    run fuel ⟨name, command⟩ w = perform fuel command (Model.initial : kind.Machine) w := by
  cases kind with
  | am0 =>
    have h0 : Text.sameName "AM0" name = true := h
    simp [run, Registry.find, Registry.builtin, h0]
    rfl
  | am1 =>
    have h1 : Text.sameName "AM1" name = true := h
    -- no name is that of both sets
    have h0 : Text.sameName "AM0" name = false := by
      simp only [Text.sameName, beq_iff_eq] at h1
      rw [Text.sameName, ← h1]
      rfl
    simp [run, Registry.find, Registry.builtin, h0, h1]
    rfl

/-- Run as a command, a program does what it does in a session on the words among the
lines of the standard input, and the exit code says how that ended. A program that is
itself the standard input has no words to read. -/
theorem exec_follows_the_session (name path stdin : String)
    (read : String → Except IoError (List UInt8)) (fuel : Nat) :
    let w : World := ⟨stdin.toUTF8.data.toList, read⟩
    let report (file : Option String) := run fuel ⟨name, .exec file⟩ w
    ((∀ kind : Kind, Text.sameName (InstructionSet.name kind.Instruction) name = false) →
      ∀ file, report file = some ⟨2, .empty,
        ("error: " ++ (UnknownName.mk name ["AM0", "AM1"]).message ++ "\n").toUTF8⟩) ∧
    ∀ kind : Kind, Text.sameName (InstructionSet.name kind.Instruction) name = true →
      let m : kind.Machine := Model.initial
      ((∀ text : String, read path ≠ .ok text.toUTF8.data.toList) →
        ∃ e : IoError, report (some path) = some ⟨1, .empty,
          ("error: cannot read '" ++ path ++ "': " ++ e.message ++ "\n").toUTF8⟩) ∧
      (∀ text : String, read path = .ok text.toUTF8.data.toList →
        ReportsOn m fuel text ((Text.lines stdin.toList).map Text.trim) (report (some path))) ∧
      ReportsOn m fuel stdin [] (report none) ∧
      ∀ p k i n a, Program.parse stdin.toList = .ok p →
        let x := (Execution.start p m ([] : List Word)).after k
        k < fuel → x.pending? = some i → Model.act i x.machine = .read n a →
        let e := RuntimeError.inputExhausted (Model.counter x.machine)
        ∃ stdout, report none =
          some ⟨3, stdout, ("runtime error: " ++ e.message ++ "\n").toUTF8⟩ := by
  intro w report
  refine ⟨fun h file => run_unknown h fuel _ w, ?_⟩
  intro kind hname m
  have hreport (file : Option String) : report file = exec fuel file m w :=
    run_known hname fuel (.exec file) w
  have hstdin : ReportsOn m fuel stdin [] (report none) := by
    have hsource : source none w = .ok (stdin.toList, ([] : List (List Char)).map .text) :=
      source_stdin rfl
    rw [hreport]
    exact exec_reports hsource m fuel
  refine ⟨fun hread => ?_, fun text hread => ?_, hstdin, ?_⟩
  · obtain ⟨e, he⟩ := source_unreadable (w := w) hread
    exact ⟨e, by rw [hreport, exec, he]; rfl⟩
  · have hlines : Line.all w.stdin =
        ((Text.lines stdin.toList).map (Text.dropWhileEnd (· == '\r'))).map .text := by
      rw [Line.all_toUTF8, List.map_map]
      rfl
    have htrim : ((Text.lines stdin.toList).map (Text.dropWhileEnd (· == '\r'))).map Text.trim =
        (Text.lines stdin.toList).map Text.trim := by
      simp only [List.map_map, Function.comp_def]
      refine List.map_congr_left fun l _ => Text.trim_dropWhileEnd (fun c hc => ?_) l
      obtain rfl : c = '\r' := by simpa using hc
      rfl
    rw [hreport, ← htrim]
    exact exec_reports (hlines ▸ source_file hread) m fuel
  · intro p k i n a hp x hk hpending hact e
    exact hstdin.of_failed hp (Execution.ending_of_no_input hk rfl hpending hact)

def echo : String := "READ 3\nWRITE 3\n"

def echoFile (path : String) : Except IoError (List UInt8) :=
  if path = "echo" then .ok echo.toUTF8.data.toList else .error .notFound

theorem echo_follows_the_session :
    let w : World := ⟨"x\n 7 \r\n9".toUTF8.data.toList, echoFile⟩
    run 0 ⟨"AM2", .exec (some "other")⟩ w = some ⟨2, .empty,
      "error: unknown instruction set 'AM2' (available: AM0, AM1)\n".toUTF8⟩ ∧
    (∃ e : IoError, run 0 ⟨"am0", .exec (some "other")⟩ w = some ⟨1, .empty,
      ("error: cannot read 'other': " ++ e.message ++ "\n").toUTF8⟩) ∧
    (∃ said, said.filterMap value? = [7] ∧
      run 9 ⟨"am0", .exec (some "echo")⟩ w = some ⟨0, bytes said, .empty⟩) ∧
    ∃ stdout, run 9 ⟨"Am0", .exec none⟩ ⟨echo.toUTF8.data.toList, echoFile⟩ = some ⟨3, stdout,
      ("runtime error: " ++ (RuntimeError.inputExhausted 0).message ++ "\n").toUTF8⟩ := by
  intro w
  let p : Program Kind.am0.Instruction := ⟨#[⟨.access .read, 3⟩, ⟨.access .write, 3⟩]⟩
  have hp : Program.parse echo.toList = .ok p := rfl
  obtain ⟨hunknown, -⟩ := exec_follows_the_session "AM2" "other" "x\n 7 \r\n9" echoFile 0
  obtain ⟨-, hother⟩ := exec_follows_the_session "am0" "other" "x\n 7 \r\n9" echoFile 0
  obtain ⟨-, hecho⟩ := exec_follows_the_session "am0" "echo" "x\n 7 \r\n9" echoFile 9
  obtain ⟨-, hstdin⟩ := exec_follows_the_session "Am0" "echo" echo echoFile 9
  obtain ⟨hunreadable, -⟩ := hother .am0 rfl
  obtain ⟨-, hreport, -⟩ := hecho .am0 rfl
  obtain ⟨-, -, -, hstarved⟩ := hstdin .am0 rfl
  refine ⟨hunknown (fun kind => by cases kind <;> rfl) _, hunreadable fun text => by simp [echoFile],
    ?_, hstarved p 0 ⟨.access .read, 3⟩ Model.initial 3 hp (by decide) rfl rfl⟩
  have h := hreport echo rfl
  simp only [ReportsOn, hp] at h
  obtain ⟨said, -, -, hvalues, -, h⟩ := h
  exact ⟨said, hvalues, h⟩

end CommandLine
end AbstractMachines
