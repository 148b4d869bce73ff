import AbstractMachines.Proofs.Atomicity
import AbstractMachines.Shell

/-!
# What a shell says and does

The shell as a function of the machine and the lines, without a sink. Lines fall
into turns: a request, and the lines that are read as input for it. A turn has
input lines only if it executes an instruction that waits for a word, and then up
to the first line that has one. The record of a dialogue lists the turns and every
text the shell writes, each with the machine and the unread lines at the time.

A shell on a sink tells its record to that sink. Where a text does not fit, the
shell ends with the machine it had then. This is so even while an instruction asks
for a word: there the failure is taken for the end of the input at first, but the
message about that does not fit either.
-/

namespace AbstractMachines

namespace Line

def word? : Line → Option Word
  | text cs => Word.ofText? (Text.trim cs)
  | garbled => none

/-- The lines read by asking for a word: up to one that has a word or is garbled. -/
def asked : List Line → List Line
  | [] => []
  | garbled :: _ => [garbled]
  | text cs :: rest => if (text cs).word?.isSome then [text cs] else text cs :: asked rest

theorem asked_append_drop (lines : List Line) :
    asked lines ++ lines.drop (asked lines).length = lines := by
  fun_induction asked lines with
  | case1 => rfl
  | case2 => rfl
  | case3 => rfl
  | case4 cs rest h ih => simpa using ih

theorem asked_append {lines more later : List Line}
    (h : lines.drop (asked lines).length = more ++ later) :
    asked (asked lines ++ more) = asked lines := by
  fun_induction asked lines with
  | case1 => simp_all [asked]
  | case2 => simp [asked]
  | case3 cs rest hv => simp [asked, hv]
  | case4 cs rest hv ih => simpa [asked, hv] using ih (by simpa using h)

end Line

namespace Session

variable {μ ι σ : Type} [InstructionSet ι] [Model μ ι] [Source σ]

def awaits (m : μ) (line : List Char) : Bool :=
  match InstructionSet.parse (ι := ι) (Text.trim line) with
  | .ok i =>
    match Model.act i m with
    | .read _ _ => true
    | _ => false
  | .error _ => false

theorem awaits_iff {m : μ} {line : List Char} :
    awaits m line = true ↔
      ∃ i n a, InstructionSet.parse (Text.trim line) = .ok i ∧ Model.act i m = .read n a := by
  simp only [awaits]
  constructor
  · intro h
    split at h
    · next i hp =>
      split at h
      · next n a ha => exact ⟨i, n, a, hp, ha⟩
      · simp at h
    · simp at h
  · rintro ⟨i, n, a, hp, ha⟩
    simp [hp, ha]

theorem executeLine_of_awaits {m : μ} {line : List Char} (h : awaits m line = true) (s : σ) :
    let r := executeLine line m (Source.next s).1.toList
    executeLine line m s = ⟨r.result, r.machine, (Source.next s).2⟩ := by
  obtain ⟨i, n, a, hp, ha⟩ := awaits_iff.1 h
  match hs : Source.next s with
  | (some v, t) =>
    have hv : Source.next [v] = (some v, []) := rfl
    simp [executeLine, hp, execute_of_read ha hs, execute_of_read ha hv]
  | (none, t) =>
    have hv : Source.next ([] : List Word) = (none, []) := rfl
    simp [executeLine, hp, execute_of_starved ha hs, execute_of_starved ha hv]

theorem executeLine_of_not_awaits {m : μ} {line : List Char} (h : awaits m line = false) (s : σ) :
    let r := executeLine line m ([] : List Word)
    executeLine line m s = ⟨r.result, r.machine, s⟩ := by
  cases hp : InstructionSet.parse (ι := ι) (Text.trim line) with
  | error e => simp [executeLine, hp]
  | ok i =>
    cases ha : Model.act i m with
    | done n o => simp [executeLine, hp, execute_of_done ha]
    | fail n e => simp [executeLine, hp, execute_of_fail ha]
    | read n a => simp [awaits_iff.2 ⟨i, n, a, hp, ha⟩] at h

theorem executeLine_starved [ReadingSet ι] [LawfulModel μ] {m : μ} {line : List Char}
    (h : awaits m line = true) :
    executeLine line m ([] : List Word) =
      ⟨.error (.runtime (.inputExhausted (Model.counter m))), m, []⟩ := by
  obtain ⟨i, n, a, hp, ha⟩ := awaits_iff.1 h
  have hn : n = m := (ha ▸ LawfulModel.act_orderly i m : (Action.read n a).Orderly m _).1
  have hv : Source.next ([] : List Word) = (none, []) := rfl
  simp [executeLine, hp, execute_of_starved ha hv, hn]

end Session

theorem Sink.write_cases (s : String) (k : Sink) :
    (∃ k', k.write s = (.ok (), k')) ∨
    ∃ bytes, k.write s = (.error .writeZero, ⟨bytes, some 0⟩) := by
  unfold write
  split
  · exact Or.inl ⟨_, rfl⟩
  · split
    · exact Or.inl ⟨_, rfl⟩
    · exact Or.inr ⟨_, rfl⟩

theorem Sink.write_full {s : String} (hs : s ≠ "") (bytes : ByteArray) :
    Sink.write s ⟨bytes, some 0⟩ = (.error .writeZero, ⟨bytes, some 0⟩) := by
  simp [write, hs]

namespace Console

theorem readLine_of_ok {prompt : String} {k k' : Sink} (hw : k.write prompt = (.ok (), k'))
    (lines : List Line) :
    readLine prompt ⟨lines, k⟩ =
      match lines with
      | [] => (.ok none, ⟨[], k'⟩)
      | .text cs :: rest => (.ok (some cs), ⟨rest, k'⟩)
      | .garbled :: rest => (.error .invalidData, ⟨rest, k'⟩) := by
  rcases lines with _ | ⟨_ | _, rest⟩ <;> simp [readLine, write, hw]

theorem readLine_of_error {prompt : String} {k k' : Sink} {e : IoError}
    (hw : k.write prompt = (.error e, k')) (lines : List Line) :
    readLine prompt ⟨lines, k⟩ = (.error e, ⟨lines, k'⟩) := by
  simp [readLine, write, hw]

theorem ask_unfold (c : Console) :
    c.ask =
      match c.readLine inputPrompt with
      | (.error _, d) => (none, d)
      | (.ok none, d) => (none, d)
      | (.ok (some line), d) =>
        match Word.ofText? (Text.trim line) with
        | some v => (some v, d)
        | none =>
          match d.write (rejection line) with
          | (.error _, e) => (none, e)
          | (.ok _, e) => ask e := by
  rw [ask]
  split
  · next h => rw [h]
  · next h => rw [h]
  · next line d h =>
    split
    · next hv => simp only [h, hv]
    · next hv => split <;> next hw => simp only [h, hv, hw]

end Console

namespace Shell

structure Note (μ : Type) where
  machine : μ
  unread : List Line
  text : String

section Tell

variable {μ β γ : Type}

/-- Writes texts one after the other and goes on with `after`, or with `stop` at
the first one that does not fit. -/
def tell (after : Sink → β) (stop : Note μ → Sink → β) : List (Note μ) → Sink → β
  | [], k => after k
  | n :: ns, k =>
    match k.write n.text with
    | (.ok _, k) => tell after stop ns k
    | (.error _, k) => stop n k

theorem tell_append (after : Sink → β) (stop : Note μ → Sink → β) (ns os : List (Note μ)) (k : Sink) :
    tell after stop (ns ++ os) k = tell (tell after stop os) stop ns k := by
  induction ns generalizing k with
  | nil => rfl
  | cons n ns ih =>
    rw [List.cons_append, tell, tell]
    split
    · exact ih _
    · rfl

theorem map_tell (f : β → γ) (after : Sink → β) (stop : Note μ → Sink → β) (ns : List (Note μ))
    (k : Sink) : f (tell after stop ns k) = tell (fun k => f (after k)) (fun n k => f (stop n k)) ns k := by
  induction ns generalizing k with
  | nil => rfl
  | cons n ns ih =>
    rw [tell, tell]
    split
    · exact ih _
    · rfl

theorem tell_congr {after after' : Sink → β} {stop stop' : Note μ → Sink → β} {ns : List (Note μ)}
    (hafter : ∀ k, after k = after' k)
    (hstop : ∀ n ∈ ns, ∀ bytes, stop n ⟨bytes, some 0⟩ = stop' n ⟨bytes, some 0⟩) (k : Sink) :
    tell after stop ns k = tell after' stop' ns k := by
  induction ns generalizing k with
  | nil => exact hafter k
  | cons n ns ih =>
    obtain ⟨hn, hns⟩ := List.forall_mem_cons.1 hstop
    rw [tell, tell]
    rcases Sink.write_cases n.text k with ⟨k', hw⟩ | ⟨bytes, hw⟩
    · simp only [hw]
      exact ih hns k'
    · simp only [hw]
      exact hn bytes

theorem tell_after {after after' : Sink → β} (h : ∀ k, after k = after' k)
    (stop : Note μ → Sink → β) (ns : List (Note μ)) (k : Sink) :
    tell after stop ns k = tell after' stop ns k := by
  rw [funext h]

def bytesOf (ns : List (Note μ)) : ByteArray := (String.join (ns.map (·.text))).toUTF8

theorem bytesOf_cons (n : Note μ) (ns : List (Note μ)) :
    bytesOf (n :: ns) = n.text.toUTF8 ++ bytesOf ns := by
  simp [bytesOf, String.join_cons]

theorem tell_unlimited (after : Sink → β) (stop : Note μ → Sink → β) (ns : List (Note μ))
    (bytes : ByteArray) : tell after stop ns ⟨bytes, none⟩ = after ⟨bytes ++ bytesOf ns, none⟩ := by
  induction ns generalizing bytes with
  | nil => simp [tell, bytesOf]
  | cons n ns ih => simp [tell, Sink.write, ih, bytesOf_cons, ByteArray.append_assoc]

end Tell

section Ask

variable {μ : Type}

def giveUp (n : Note μ) (k : Sink) : Option Word × Console := (none, ⟨n.unread, k⟩)

def askNotes (m : μ) : List Line → List (Note μ)
  | [] => [⟨m, [], Console.inputPrompt⟩]
  | .garbled :: rest => [⟨m, .garbled :: rest, Console.inputPrompt⟩]
  | .text cs :: rest =>
    if (Line.text cs).word?.isSome then [⟨m, .text cs :: rest, Console.inputPrompt⟩]
    else
      ⟨m, .text cs :: rest, Console.inputPrompt⟩ :: ⟨m, rest, Console.rejection cs⟩ ::
        askNotes m rest

theorem machine_of_mem_askNotes {m : μ} {lines : List Line} {n : Note μ}
    (h : n ∈ askNotes m lines) : n.machine = m := by
  fun_induction askNotes m lines with
  | case1 => simp_all
  | case2 rest => simp_all
  | case3 cs rest hw => simp_all
  | case4 cs rest hw ih =>
    simp only [List.mem_cons] at h
    rcases h with rfl | rfl | h
    · rfl
    · rfl
    · exact ih h

theorem ask_eq_round (m : μ) (lines : List Line) (k : Sink) :
    Console.ask ⟨lines, k⟩ =
      tell (fun k =>
          match lines with
          | [] => (none, ⟨[], k⟩)
          | .garbled :: rest => (none, ⟨rest, k⟩)
          | .text cs :: rest =>
            match (Line.text cs).word? with
            | some v => (some v, ⟨rest, k⟩)
            | none => tell (fun k => Console.ask ⟨rest, k⟩) giveUp [⟨m, rest, Console.rejection cs⟩] k)
        giveUp [⟨m, lines, Console.inputPrompt⟩] k := by
  rw [Console.ask_unfold]
  rcases Sink.write_cases Console.inputPrompt k with ⟨k', hw⟩ | ⟨bytes, hw⟩
  · simp only [tell, hw, Console.readLine_of_ok hw]
    rcases lines with _ | ⟨cs | _, rest⟩
    · rfl
    · dsimp only [Line.word?]
      split
      · rfl
      · rcases Sink.write_cases (Console.rejection cs) k' with ⟨k'', hr⟩ | ⟨bytes, hr⟩ <;>
          simp [Console.write, hr, giveUp]
    · rfl
  · simp [Console.readLine_of_error hw, tell, hw, giveUp]

theorem ask_eq_tell (m : μ) (lines : List Line) (k : Sink) :
    let asked := Line.asked lines
    Console.ask ⟨lines, k⟩ =
      tell (fun k => (asked.findSome? Line.word?, ⟨lines.drop asked.length, k⟩)) giveUp
        (askNotes m lines) k := by
  fun_induction askNotes m lines generalizing k with
  | case1 => exact ask_eq_round m [] k
  | case2 rest => exact ask_eq_round m (.garbled :: rest) k
  | case3 cs rest hv =>
    obtain ⟨v, hv⟩ := Option.isSome_iff_exists.1 hv
    rw [ask_eq_round m]
    simp [Line.asked, hv]
  | case4 cs rest hv ih =>
    have hnone : (Line.text cs).word? = none := by simpa using hv
    rw [ask_eq_round m]
    simp only [hnone, ih]
    simp [tell, Line.asked, hnone]

end Ask

def answerTo : Except SessionError (Option Word) → Option String
  | .ok output => output.map outputLine
  | .error e => some ("Error: " ++ e.message ++ "\n")

/-- A request and the lines read as input for it. -/
structure Turn where
  command : List Char
  inputs : List Line
  deriving DecidableEq

namespace Turn

variable {μ ι : Type} [InstructionSet ι] [Model μ ι]

def lines (t : Turn) : List Line := .text t.command :: t.inputs

def request (t : Turn) : Request := .ofLine t.command

def input (t : Turn) : List Word := (t.inputs.findSome? Line.word?).toList

def machine (t : Turn) (m : μ) : μ :=
  match t.request with
  | .exec arg => (Session.executeLine arg m t.input).machine
  | .reset => Model.initial
  | _ => m

def answer? (t : Turn) (m : μ) : Option String :=
  match t.request with
  | .nothing | .reset => none
  | .exec arg => answerTo (Session.executeLine arg m t.input).result
  | .status => some (Model.status m ++ "\n")
  | .help => some helpText
  | .exit => some farewell
  | .unknown line => some ("*** Unknown command: " ++ String.ofList line ++ "\n")

def awaits (m : μ) (command : List Char) : Bool :=
  match Request.ofLine command with
  | .exec arg => Session.awaits m arg
  | _ => false

theorem request_of_awaits {m : μ} {command : List Char} (h : awaits m command = true) :
    ∃ arg, Request.ofLine command = .exec arg ∧ Session.awaits m arg = true := by
  simp only [awaits] at h
  split at h
  · next arg hr => exact ⟨arg, hr, h⟩
  · simp at h

def take (m : μ) (command : List Char) (rest : List Line) : Turn :=
  ⟨command, if awaits m command then Line.asked rest else []⟩

theorem inputs_append_drop (m : μ) (command : List Char) (rest : List Line) :
    (take m command rest).inputs ++ rest.drop (take m command rest).inputs.length = rest := by
  unfold take
  split
  · exact Line.asked_append_drop rest
  · rfl

theorem take_append {m : μ} {command : List Char} {rest more later : List Line}
    (h : rest.drop (take m command rest).inputs.length = more ++ later) :
    take m command ((take m command rest).inputs ++ more) = take m command rest := by
  cases ha : awaits m command with
  | false => simp [take, ha]
  | true =>
    simp only [take, ha, if_true] at h ⊢
    rw [Line.asked_append h]

def notes (m : μ) (command : List Char) (rest : List Line) : List (Note μ) :=
  let t := take m command rest
  (if awaits m command then askNotes m rest else []) ++
    ((t.answer? m).map (Note.mk (t.machine m) (rest.drop t.inputs.length))).toList

end Turn

section Record

variable {μ ι : Type} [InstructionSet ι] [Model μ ι]

structure Record (μ : Type) where
  turns : List Turn
  notes : List (Note μ)
  result : Except IoError Unit
  machine : μ
  unread : List Line

def record (m : μ) (lines : List Line) : Record μ :=
  let asking : Note μ := ⟨m, lines, prompt (InstructionSet.name ι)⟩
  match lines with
  | [] => ⟨[], [asking, ⟨m, [], "\n"⟩, ⟨m, [], farewell⟩], .ok (), m, []⟩
  | .garbled :: rest => ⟨[], [asking], .error .invalidData, m, rest⟩
  | .text command :: rest =>
    let t := Turn.take m command rest
    let left := rest.drop t.inputs.length
    if t.request = .exit then
      ⟨[t], asking :: Turn.notes m command rest, .ok (), t.machine m, left⟩
    else
      let r := record (t.machine m) left
      ⟨t :: r.turns, asking :: (Turn.notes m command rest ++ r.notes), r.result, r.machine, r.unread⟩
termination_by lines.length

def broken {α : Type} (n : Note μ) (k : Sink) : Reply α μ :=
  ⟨.error .writeZero, n.machine, ⟨n.unread, k⟩⟩

def sayAny (s : Option String) (next : Bool) (m : μ) (c : Console) : Reply Bool μ :=
  match s with
  | some s => say s next m c
  | none => ⟨.ok next, m, c⟩

omit [InstructionSet ι] [Model μ ι] in
theorem say_eq_tell {α : Type} (s : String) (next : α) (m : μ) (lines : List Line) (k : Sink) :
    say s next m ⟨lines, k⟩ =
      tell (fun k => ⟨.ok next, m, ⟨lines, k⟩⟩) broken [⟨m, lines, s⟩] k := by
  rcases Sink.write_cases s k with ⟨k', hw⟩ | ⟨bytes, hw⟩ <;>
    simp [say, Console.write, tell, broken, hw]

omit [InstructionSet ι] [Model μ ι] in
theorem sayAny_eq_tell (s : Option String) (next : Bool) (m : μ) (lines : List Line) (k : Sink) :
    sayAny s next m ⟨lines, k⟩ =
      tell (fun k => ⟨.ok next, m, ⟨lines, k⟩⟩) broken (s.map (Note.mk m lines)).toList k := by
  cases s with
  | none => rfl
  | some s => exact say_eq_tell s next m lines k

theorem exec_eq_sayAny (arg : List Char) (m : μ) (c : Console) :
    let r := Session.executeLine arg m c
    exec arg m c = sayAny (answerTo r.result) true r.machine r.input := by
  intro r
  rw [exec]
  split <;> next h => simp [r, h, sayAny, answerTo]

def answered (arg : List Char) (m : μ) (p : Option Word × Console) : Reply Bool μ :=
  let r := Session.executeLine arg m p.1.toList
  sayAny (answerTo r.result) true r.machine p.2

theorem handle_of_not_awaits {m : μ} {command : List Char} (h : Turn.awaits m command = false)
    (c : Console) :
    let t : Turn := ⟨command, []⟩
    handle t.request m c = sayAny (t.answer? m) (t.request ≠ .exit) (t.machine m) c := by
  intro t
  cases hr : t.request with
  | exec arg =>
    have ha : Session.awaits m arg = false := by
      simpa [Turn.awaits, show Request.ofLine command = .exec arg from hr] using h
    simp [handle, exec_eq_sayAny, Session.executeLine_of_not_awaits ha c, Turn.answer?, Turn.machine, hr,
      show t.input = [] from rfl]
  | nothing | reset | status | help | exit | unknown line =>
    simp [handle, sayAny, Turn.answer?, Turn.machine, hr]

def goOn (r : Reply Bool μ) : Reply Unit μ :=
  match r with
  | ⟨.error e, m, c⟩ => ⟨.error e, m, c⟩
  | ⟨.ok false, m, c⟩ => ⟨.ok (), m, c⟩
  | ⟨.ok true, m, c⟩ => loop m c

def takeLeave (m : μ) (c : Console) : Reply Unit μ :=
  match c.write "\n" with
  | (.error e, c) => ⟨.error e, m, c⟩
  | (.ok _, c) => say farewell () m c

theorem loop_unfold (m : μ) (c : Console) :
    loop m c =
      match c.readLine (prompt (InstructionSet.name ι)) with
      | (.error e, c) => ⟨.error e, m, c⟩
      | (.ok none, c) => takeLeave m c
      | (.ok (some line), c) => goOn (handle (Request.ofLine line) m c) := by
  rw [loop]
  split
  · next h => rw [h]
  · next h =>
    rw [h]
    rfl
  · next line d h => split <;> next hh => simp only [h, hh, goOn]

theorem loop_eq_round (m : μ) (lines : List Line) (k : Sink) :
    loop m ⟨lines, k⟩ =
      tell (fun k =>
          match lines with
          | [] => tell (fun k => ⟨.ok (), m, ⟨[], k⟩⟩) broken [⟨m, [], "\n"⟩, ⟨m, [], farewell⟩] k
          | .garbled :: rest => ⟨.error .invalidData, m, ⟨rest, k⟩⟩
          | .text command :: rest => goOn (handle (Request.ofLine command) m ⟨rest, k⟩))
        broken [⟨m, lines, prompt (InstructionSet.name ι)⟩] k := by
  rw [loop_unfold]
  rcases Sink.write_cases (prompt (InstructionSet.name ι)) k with ⟨k', hw⟩ | ⟨bytes, hw⟩
  · simp only [tell, hw, Console.readLine_of_ok hw]
    rcases lines with _ | ⟨_ | _, rest⟩
    · rcases Sink.write_cases "\n" k' with ⟨k'', hn⟩ | ⟨bytes, hn⟩
      · simp [takeLeave, Console.write, hn, say_eq_tell, tell]
      · simp [takeLeave, Console.write, hn, broken]
    · rfl
    · rfl
  · simp [Console.readLine_of_error hw, tell, hw, broken]

variable [ReadingSet ι] [LawfulModel μ]

theorem exec_of_awaits {arg : List Char} {m : μ} (h : Session.awaits m arg = true)
    (rest : List Line) (k : Sink) :
    exec arg m ⟨rest, k⟩ =
      tell (fun k => answered arg m ((Line.asked rest).findSome? Line.word?,
          ⟨rest.drop (Line.asked rest).length, k⟩))
        broken (askNotes m rest) k := by
  rw [exec_eq_sayAny, Session.executeLine_of_awaits h]
  change answered arg m (Console.ask ⟨rest, k⟩) = _
  rw [ask_eq_tell m, map_tell (answered arg m)]
  refine tell_congr (fun k => rfl) (fun n hn bytes => ?_) k
  -- the failure looks like the end of the input, and the message about that fails too
  have hm := machine_of_mem_askNotes hn
  simp [answered, giveUp, Session.executeLine_starved h, answerTo, sayAny, say, Console.write,
    broken, hm, Sink.write_full]

theorem handle_eq_tell (m : μ) (command : List Char) (rest : List Line) (k : Sink) :
    let t := Turn.take m command rest
    handle t.request m ⟨rest, k⟩ =
      tell (fun k => ⟨.ok (decide (t.request ≠ .exit)), t.machine m,
          ⟨rest.drop t.inputs.length, k⟩⟩)
        broken (Turn.notes m command rest) k := by
  intro t
  cases h : Turn.awaits m command with
  | false =>
    have ht : t = ⟨command, []⟩ := by simp [t, Turn.take, h]
    rw [ht, handle_of_not_awaits h, sayAny_eq_tell]
    simp [Turn.notes, Turn.take, h]
  | true =>
    obtain ⟨arg, hr, ha⟩ := Turn.request_of_awaits h
    change t.request = _ at hr
    have hi : t.inputs = Line.asked rest := by simp [t, Turn.take, h]
    have hn : Turn.notes m command rest = askNotes m rest ++
        ((t.answer? m).map (Note.mk (t.machine m) (rest.drop t.inputs.length))).toList := by
      simp [Turn.notes, t, h]
    rw [hn, tell_append, hr, handle, exec_of_awaits ha]
    simp [answered, sayAny_eq_tell, Turn.answer?, Turn.machine, Turn.input, hr, hi]

theorem goOn_handle (m : μ) (command : List Char) (rest : List Line) (k : Sink) :
    let t := Turn.take m command rest
    let left := rest.drop t.inputs.length
    goOn (handle t.request m ⟨rest, k⟩) =
      tell (fun k => if t.request = .exit then ⟨.ok (), t.machine m, ⟨left, k⟩⟩
          else loop (t.machine m) ⟨left, k⟩)
        broken (Turn.notes m command rest) k := by
  intro t left
  rw [handle_eq_tell, map_tell goOn]
  refine tell_after (fun k => ?_) broken _ k
  by_cases ht : t.request = .exit
  · simp [ht, t, left, goOn]
  · simp [ht, t, left, goOn]

theorem loop_text (m : μ) (command : List Char) (rest : List Line) (k : Sink) :
    let t := Turn.take m command rest
    let left := rest.drop t.inputs.length
    loop m ⟨.text command :: rest, k⟩ =
      tell (fun k => if t.request = .exit then ⟨.ok (), t.machine m, ⟨left, k⟩⟩
          else loop (t.machine m) ⟨left, k⟩)
        broken (⟨m, .text command :: rest, prompt (InstructionSet.name ι)⟩ ::
          Turn.notes m command rest) k := by
  rw [loop_eq_round]
  exact (tell_after (goOn_handle m command rest) broken _ k).trans (tell_append _ _ [_] _ k).symm

theorem loop_eq_tell (m : μ) (lines : List Line) (k : Sink) :
    let r := record m lines
    loop m ⟨lines, k⟩ = tell (fun k => ⟨r.result, r.machine, ⟨r.unread, k⟩⟩) broken r.notes k := by
  fun_induction record m lines generalizing k with
  | case1 m asking =>
    rw [loop_eq_round]
    exact (tell_append _ _ [asking] _ k).symm
  | case2 m rest asking => exact loop_eq_round m (.garbled :: rest) k
  | case3 m command rest t left ht asking =>
    rw [loop_text]
    exact tell_after (fun k => if_pos ht) broken _ k
  | case4 m command rest t left ht r asking ih =>
    rw [loop_text]
    refine (tell_after (fun k => (if_neg ht).trans (ih k)) broken _ k).trans ?_
    exact (tell_append _ _ (asking :: Turn.notes m command rest) _ k).symm

def transcript (m : μ) (lines : List Line) : List (Note μ) :=
  ⟨m, lines, greeting (InstructionSet.name ι)⟩ :: (record m lines).notes

theorem run_eq_tell (m : μ) (lines : List Line) (k : Sink) :
    let r := record m lines
    run m ⟨lines, k⟩ =
      tell (fun k => ⟨r.result, r.machine, ⟨r.unread, k⟩⟩) broken (transcript m lines) k := by
  rcases Sink.write_cases (greeting (InstructionSet.name ι)) k with ⟨k', hw⟩ | ⟨bytes, hw⟩
  · simp [run, Console.write, transcript, tell, hw, loop_eq_tell]
  · simp [run, Console.write, transcript, tell, hw, broken]

theorem run_unlimited (m : μ) (lines : List Line) :
    let r := record m lines
    run m ⟨lines, {}⟩ = ⟨r.result, r.machine, ⟨r.unread, bytesOf (transcript m lines), none⟩⟩ := by
  rw [run_eq_tell]
  exact (tell_unlimited _ _ _ _).trans (by rw [ByteArray.empty_append])

end Record

end Shell
end AbstractMachines
