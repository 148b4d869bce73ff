import AbstractMachines.Proofs.Dialogue

/-!
# Shells whose output breaks

A sink with room for `n` bytes gets the first `n` bytes of what a sink without a
limit gets. If that is not all, the shell fails as soon as a text does not fit,
with the machine it had when it began to write that text. Which machine that is can
be told from the lines read by then: a shell that is given only these lines ends
with it.
-/

namespace AbstractMachines
namespace Shell

section Bytes

variable {μ β : Type}

/-- The text that the byte with number `i` belongs to, counted from zero. -/
def noteAt? : List (Note μ) → Nat → Option (Note μ)
  | [], _ => none
  | n :: ns, i =>
    if i < n.text.toUTF8.size then some n else noteAt? ns (i - n.text.toUTF8.size)

theorem noteAt?_eq_none_iff (ns : List (Note μ)) (i : Nat) :
    noteAt? ns i = none ↔ (bytesOf ns).size ≤ i := by
  fun_induction noteAt? ns i with
  | case1 i => simp [bytesOf]
  | case2 n ns i h =>
    simp only [bytesOf_cons, ByteArray.size_append, reduceCtorEq, false_iff]
    omega
  | case3 n ns i h ih =>
    simp only [bytesOf_cons, ByteArray.size_append, ih]
    omega

theorem mem_of_noteAt? {ns : List (Note μ)} {i : Nat} {n : Note μ} (h : noteAt? ns i = some n) :
    n ∈ ns := by
  fun_induction noteAt? ns i with
  | case1 i => simp at h
  | case2 n' ns i hi => simp_all
  | case3 n' ns i hi ih => exact List.mem_cons_of_mem _ (ih h)

theorem tell_limited (after : Sink → β) (stop : Note μ → Sink → β) (ns : List (Note μ))
    (bytes : ByteArray) (room : Nat) :
    tell after stop ns ⟨bytes, some room⟩ =
      match noteAt? ns room with
      | none => after ⟨bytes ++ bytesOf ns, some (room - (bytesOf ns).size)⟩
      | some n => stop n ⟨bytes ++ (bytesOf ns).extract 0 room, some 0⟩ := by
  induction ns generalizing bytes room with
  | nil => simp [tell, noteAt?, bytesOf]
  | cons n ns ih =>
    by_cases h : room < n.text.toUTF8.size
    · have hcut : (n.text.toUTF8 ++ bytesOf ns).extract 0 room = n.text.toUTF8.extract 0 room := by
        rw [ByteArray.extract_append, Nat.sub_eq_zero_of_le (Nat.le_of_lt h), Nat.zero_sub,
          ByteArray.extract_same, ByteArray.append_empty]
      simp only [tell, Sink.write, noteAt?, bytesOf_cons, if_pos h, if_neg (Nat.not_le.2 h), hcut]
    · have hcut : (n.text.toUTF8 ++ bytesOf ns).extract 0 room =
          n.text.toUTF8 ++ (bytesOf ns).extract 0 (room - n.text.toUTF8.size) := by
        rw [ByteArray.extract_append, Nat.zero_sub, ← Nat.max_eq_left (Nat.not_lt.1 h),
          ByteArray.extract_zero_max_size]
      simp only [tell, Sink.write, noteAt?, bytesOf_cons, if_neg h, if_pos (Nat.not_lt.1 h), hcut, ih,
        ByteArray.size_append, ByteArray.append_assoc, Nat.sub_sub]

end Bytes

section Reading

variable {μ ι : Type} [InstructionSet ι] [Model μ ι]

omit [InstructionSet ι] [Model μ ι] in
theorem read_of_mem_askNotes {m : μ} {lines : List Line} {n : Note μ}
    (h : n ∈ askNotes m lines) :
    ∃ read, lines = read ++ n.unread ∧ Line.asked read = read ∧
      read.findSome? Line.word? = none := by
  fun_induction askNotes m lines with
  | case1 => exact ⟨[], by simp_all [Line.asked]⟩
  | case2 rest => exact ⟨[], by simp_all [Line.asked]⟩
  | case3 cs rest hv => exact ⟨[], by simp_all [Line.asked]⟩
  | case4 cs rest hv ih =>
    simp only [List.mem_cons] at h
    rcases h with rfl | rfl | h
    · exact ⟨[], by simp [Line.asked]⟩
    · exact ⟨[.text cs], by simp_all [Line.asked]⟩
    · obtain ⟨read, hread, hasked, hword⟩ := ih h
      exact ⟨.text cs :: read, by simp_all [Line.asked]⟩

theorem record_text_machine (m : μ) (command : List Char) (rest : List Line) :
    let t := Turn.take m command rest
    (record m (.text command :: rest)).machine =
      if t.request = .exit then t.machine m
      else (record (t.machine m) (rest.drop t.inputs.length)).machine := by
  intro t
  rw [record]
  split <;> rfl

theorem record_nil_machine (m : μ) : (record m []).machine = m := by
  rw [record]

theorem record_turn_machine {m : μ} {command : List Char} {inputs : List Line}
    (h : (Turn.take m command inputs).inputs = inputs) :
    (record m (.text command :: inputs)).machine = (Turn.take m command inputs).machine m := by
  rw [record_text_machine, h, List.drop_length, record_nil_machine]
  exact ite_self _

variable [ReadingSet ι] [LawfulModel μ]

theorem read_of_mem_turn {m : μ} {command : List Char} {rest : List Line} {n : Note μ}
    (h : n ∈ Turn.notes m command rest) :
    ∃ read, rest = read ++ n.unread ∧ (record m (.text command :: read)).machine = n.machine := by
  rcases List.mem_append.1 h with h | h
  · split at h
    -- given only the lines rejected so far, the instruction finds no word and changes nothing
    · next hawaits =>
      obtain ⟨arg, hr, ha⟩ := Turn.request_of_awaits hawaits
      obtain ⟨read, hread, hasked, hword⟩ := read_of_mem_askNotes h
      have ht : Turn.take m command read = ⟨command, read⟩ := by
        simp [Turn.take, hawaits, hasked]
      refine ⟨read, hread, ?_⟩
      rw [record_turn_machine (by rw [ht]), ht, machine_of_mem_askNotes h]
      simp [Turn.machine, Turn.request, Turn.input, hr, hword, Session.executeLine_starved ha]
    · simp at h
  · obtain ⟨s, -, rfl⟩ := Option.map_eq_some_iff.1 (Option.mem_toList.1 h)
    have hleft : rest.drop (Turn.take m command rest).inputs.length = [] ++ rest.drop _ := rfl
    have ht : Turn.take m command (Turn.take m command rest).inputs = Turn.take m command rest := by
      simpa using Turn.take_append hleft
    refine ⟨_, (Turn.inputs_append_drop m command rest).symm, ?_⟩
    rw [record_turn_machine (by rw [ht]), ht]

theorem read_of_mem_record {m : μ} {lines : List Line} {n : Note μ}
    (h : n ∈ (record m lines).notes) :
    ∃ read, lines = read ++ n.unread ∧ (record m read).machine = n.machine := by
  fun_induction record m lines with
  | case1 m asking =>
    simp only [List.mem_cons, List.not_mem_nil, or_false] at h
    rcases h with rfl | rfl | rfl <;> exact ⟨[], rfl, record_nil_machine m⟩
  | case2 m rest asking =>
    obtain rfl : n = asking := by simpa using h
    exact ⟨[], rfl, record_nil_machine m⟩
  | case3 m command rest t left ht asking =>
    rcases List.mem_cons.1 h with rfl | h
    · exact ⟨[], rfl, record_nil_machine m⟩
    · obtain ⟨read, hread, hm⟩ := read_of_mem_turn h
      exact ⟨.text command :: read, by simp [hread], hm⟩
  | case4 m command rest t left ht r asking ih =>
    rcases List.mem_cons.1 h with rfl | h
    · exact ⟨[], rfl, record_nil_machine m⟩
    rcases List.mem_append.1 h with h | h
    · obtain ⟨read, hread, hm⟩ := read_of_mem_turn h
      exact ⟨.text command :: read, by simp [hread], hm⟩
    -- what a later text has read comes after the lines of the first turn, which stays the same
    · obtain ⟨read, hread, hm⟩ := ih h
      have ht' : Turn.take m command (t.inputs ++ read) = t := Turn.take_append hread
      refine ⟨.text command :: (t.inputs ++ read), ?_, ?_⟩
      · rw [List.cons_append, List.append_assoc, ← hread, Turn.inputs_append_drop]
      · rw [record_text_machine, ht', if_neg ht, List.drop_left, hm]

theorem run_limited (m : μ) (lines : List Line) (room : Nat) :
    let r := record m lines
    let bytes := bytesOf (transcript m lines)
    run m ⟨lines, .empty, some room⟩ =
      match noteAt? (transcript m lines) room with
      | none => ⟨r.result, r.machine, ⟨r.unread, bytes, some (room - bytes.size)⟩⟩
      | some n => ⟨.error .writeZero, n.machine, ⟨n.unread, bytes.extract 0 room, some 0⟩⟩ := by
  rw [run_eq_tell, tell_limited]
  simp only [ByteArray.empty_append, broken]

theorem read_of_mem_transcript {m : μ} {lines : List Line} {n : Note μ}
    (h : n ∈ transcript m lines) :
    ∃ read, lines = read ++ n.unread ∧ (run m ⟨read, {}⟩).machine = n.machine := by
  rcases List.mem_cons.1 h with rfl | h
  · exact ⟨[], rfl, by rw [run_unlimited, record_nil_machine]⟩
  · obtain ⟨read, hread, hm⟩ := read_of_mem_record h
    exact ⟨read, hread, by rw [run_unlimited, hm]⟩

end Reading

end Shell

/-- A shell on a sink with room for too few bytes fails when it is full: with the
bytes that fit, and with the machine a shell without a limit has when it writes the
next byte. Any other sink gets all. -/
theorem broken_output_ends_the_shell (kind : Kind) (m : kind.Machine) (script : List UInt8)
    (room : Nat) :
    let lines := Line.all script
    let notes := Shell.transcript m lines
    let free := Shell.run m ⟨lines, .empty, none⟩
    let bound := Shell.run m ⟨lines, .empty, some room⟩
    let bytes := free.console.sink.bytes
    bytes = (String.join (notes.map (·.text))).toUTF8 ∧
    (∀ n ∈ notes, ∃ read, lines = read ++ n.unread ∧
      n.machine = (Shell.run m ⟨read, .empty, none⟩).machine) ∧
    (bytes.size ≤ room →
      bound.result = free.result ∧ bound.machine = free.machine ∧
      bound.console.sink.bytes = bytes) ∧
    (room < bytes.size →
      bound.result = .error .writeZero ∧ bound.console.sink.bytes = bytes.extract 0 room ∧
      ∃ n, Shell.noteAt? notes room = some n ∧ bound.machine = n.machine ∧
        bound.console.unread = n.unread) := by
  intro lines notes free bound bytes
  have hfree : free = _ := Shell.run_unlimited m lines
  have hbound : bound = _ := Shell.run_limited m lines room
  have hbytes : bytes = Shell.bytesOf notes := by simp only [bytes, hfree, notes]
  refine ⟨hbytes, fun n hn => ?_, fun hroom => ?_, fun hroom => ?_⟩
  · obtain ⟨read, hread, hm⟩ := Shell.read_of_mem_transcript hn
    exact ⟨read, hread, hm.symm⟩
  · have hall : Shell.noteAt? notes room = none := by
      rw [Shell.noteAt?_eq_none_iff, ← hbytes]
      exact hroom
    rw [hbound, hall, hbytes, hfree]
    exact ⟨rfl, rfl, rfl⟩
  · cases hn : Shell.noteAt? notes room with
    | none =>
      rw [Shell.noteAt?_eq_none_iff, ← hbytes] at hn
      exact absurd hroom (Nat.not_lt.2 hn)
    | some n =>
      rw [hbound, hn, hbytes]
      exact ⟨rfl, rfl, n, rfl, rfl, rfl⟩

def askingScript : List UInt8 := "exec READ 1\nx\n5\n".toUTF8.data.toList

theorem asking_cut_short :
    let m : AM0.Machine := Model.initial
    let lines := Line.all askingScript
    let notes := Shell.transcript m lines
    let free := Shell.run m ⟨lines, .empty, none⟩
    let bytes := free.console.sink.bytes
    let bound := Shell.run m ⟨lines, .empty, some 56⟩
    let ample := Shell.run m ⟨lines, .empty, some 116⟩
    (∃ n ∈ notes, ∃ read, lines = read ++ n.unread ∧
      n.machine = (Shell.run m ⟨read, .empty, none⟩).machine) ∧
    bytes.size ≤ 116 ∧ ample.machine = free.machine ∧ ample.console.sink.bytes = bytes ∧
    56 < bytes.size ∧ bound.result = .error .writeZero ∧ bound.machine = m ∧
    bound.console.sink.bytes = bytes.extract 0 56 := by
  intro m lines notes free bytes bound ample
  obtain ⟨-, hread, -, hcut⟩ := broken_output_ends_the_shell .am0 m askingScript 56
  obtain ⟨-, -, hall, -⟩ := broken_output_ends_the_shell .am0 m askingScript 116
  have hsize : bytes.size = 116 := by decide +kernel
  have hmachine : (Shell.noteAt? notes 56).map (·.machine) = some m := by decide +kernel
  have hlong : 56 < bytes.size := by omega
  have hfits : bytes.size ≤ 116 := by omega
  obtain ⟨hresult, hbytes, n, hn, hm, -⟩ := hcut hlong
  obtain ⟨-, hsame, htold⟩ := hall hfits
  have hmem := Shell.mem_of_noteAt? hn
  refine ⟨⟨n, hmem, hread n hmem⟩, hfits, hsame, htold, hlong, hresult, ?_, hbytes⟩
  rw [show Shell.noteAt? notes 56 = some n from hn] at hmachine
  exact hm.trans (Option.some.inj hmachine)

end AbstractMachines
