import AbstractMachines.Proofs.FullSink
import AbstractMachines.Proofs.Tracing

/-!
# Traces on a sink with little room

A trace writes a line before the first instruction and one after each that succeeds,
and no line is empty. So a sink with room for `n` bytes stops any trace within `n`
steps, also of a program that would go on for ever. It gets the first `n` bytes of
what a sink without a limit gets. If that is not all, the trace fails at the first
line that does not fit, and the instruction before that line has been executed.
-/

namespace AbstractMachines

namespace Execution

variable {μ ι σ : Type} [Model μ ι] [Source σ] {x : Execution μ ι σ}

theorem after_of_ended {j k : Nat} (hjk : j ≤ k) (hend : ending j x ≠ .unfinished) :
    history k x = history j x ∧ after k x = after j x := by
  induction j generalizing k x with
  | zero => exact absurd rfl hend
  | succ j ih =>
    obtain ⟨k, rfl⟩ := Nat.exists_eq_add_of_le' (Nat.le_trans (Nat.le_add_left 1 j) hjk)
    rcases next_cases x with h | ⟨i, o, n, t, h, he⟩ | ⟨i, e, n, t, h, he⟩
    · rw [history_of_over h, history_of_over h, after_succ_of_over h, after_succ_of_over h]
      exact ⟨rfl, rfl⟩
    · rw [ending_succ_of_ok h he] at hend
      obtain ⟨hh, ha⟩ := ih (Nat.le_of_succ_le_succ hjk) hend
      rw [history_succ_of_ok h he, history_succ_of_ok h he, after_succ_of_ok h he,
        after_succ_of_ok h he, hh, ha]
      exact ⟨rfl, rfl⟩
    · rw [history_succ_of_error h he, history_succ_of_error h he, after_succ_of_error h he,
        after_succ_of_error h he]
      exact ⟨rfl, rfl⟩

theorem executed_take {j k : Nat} (hjk : j ≤ k) (x : Execution μ ι σ) :
    executed j x = (executed k x).take j := by
  induction j generalizing k x with
  | zero => simp [executed, history]
  | succ j ih =>
    obtain ⟨k, rfl⟩ := Nat.exists_eq_add_of_le' (Nat.le_trans (Nat.le_add_left 1 j) hjk)
    rcases next_cases x with h | ⟨i, o, n, t, h, he⟩ | ⟨i, e, n, t, h, he⟩
    · simp [executed_of_over h]
    · rw [executed_succ_of_ok h he, executed_succ_of_ok h he, List.take_succ_cons,
        ih (Nat.le_of_succ_le_succ hjk)]
    · simp [executed_of_error h he]

theorem length_executed_of_unfinished {k : Nat} (h : ending k x = .unfinished) :
    (executed k x).length = k := by
  induction k generalizing x with
  | zero => rfl
  | succ k ih =>
    rcases next_cases x with hx | ⟨i, o, n, t, hx, he⟩ | ⟨i, e, n, t, hx, he⟩
    · simp [ending_succ_of_over hx] at h
    · rw [ending_succ_of_ok hx he] at h
      rw [executed_succ_of_ok hx he, List.length_cons, ih h]
    · simp [ending_succ_of_error hx he] at h

end Execution

namespace Shell

variable {μ : Type} {ns : List (Note μ)}

theorem bytesOf_append (ns os : List (Note μ)) : bytesOf (ns ++ os) = bytesOf ns ++ bytesOf os := by
  induction ns with
  | nil => simp [bytesOf]
  | cons n ns ih => rw [List.cons_append, bytesOf_cons, bytesOf_cons, ih, ByteArray.append_assoc]

theorem extract_bytesOf_append {n : Nat} (h : n ≤ (bytesOf ns).size) (os : List (Note μ)) :
    (bytesOf (ns ++ os)).extract 0 n = (bytesOf ns).extract 0 n := by
  rw [bytesOf_append, ByteArray.extract_append, Nat.sub_eq_zero_of_le h, Nat.zero_sub,
    ByteArray.extract_same, ByteArray.append_empty]

theorem length_le_size (h : ∀ n ∈ ns, n.text ≠ "") : ns.length ≤ (bytesOf ns).size := by
  induction ns with
  | nil => simp
  | cons n ns ih =>
    obtain ⟨hn, hns⟩ := List.forall_mem_cons.1 h
    have hpos : 0 < n.text.toUTF8.size := Nat.pos_of_ne_zero (by simpa using hn)
    rw [bytesOf_cons, ByteArray.size_append, List.length_cons]
    have := ih hns
    omega

theorem noteAt?_append {i : Nat} {n : Note μ} (h : noteAt? ns i = some n) (os : List (Note μ)) :
    noteAt? (ns ++ os) i = some n := by
  fun_induction noteAt? ns i with
  | case1 i => simp at h
  | case2 n' ns i hi =>
    rw [List.cons_append, noteAt?, if_pos hi]
    exact h
  | case3 n' ns i hi ih =>
    rw [List.cons_append, noteAt?, if_neg hi]
    exact ih h

theorem index_of_noteAt? {i : Nat} {n : Note μ} (h : noteAt? ns i = some n) :
    ∃ j, ns[j]? = some n ∧ (bytesOf (ns.take j)).size ≤ i ∧ i < (bytesOf (ns.take (j + 1))).size := by
  fun_induction noteAt? ns i with
  | case1 i => simp at h
  | case2 n' ns i hi =>
    obtain rfl : n' = n := by simpa using h
    exact ⟨0, rfl, by simp [bytesOf], by simpa [bytesOf] using hi⟩
  | case3 n' ns i hi ih =>
    obtain ⟨j, hj, hle, hlt⟩ := ih h
    refine ⟨j + 1, by simpa using hj, ?_, ?_⟩
    · rw [List.take_succ_cons, bytesOf_cons, ByteArray.size_append]
      omega
    · rw [List.take_succ_cons, bytesOf_cons, ByteArray.size_append]
      omega

end Shell

namespace Session

open Shell (Note bytesOf noteAt?)

variable {μ ι : Type} [Model μ ι]

def noteOf (x : Execution μ ι Backlog) (before : List Word) (k : Nat) : Note μ :=
  ⟨(x.after k).machine, [], snapshotAt x before k⟩

def traceNotes (x : Execution μ ι Backlog) (fuel : Nat) : List (Note μ) :=
  (List.range ((x.executed fuel).length + 1)).map (noteOf x [])

def cutShort (n : Note μ) (k : Sink) : TraceReply μ := ⟨some (.error (.io .writeZero)), n.machine, k⟩

theorem traceFrom_eq_tell (fuel : Nat) (x : Execution μ ι Backlog) (before : Array Word) (k : Sink) :
    traceFrom fuel x before k =
      Shell.tell (fun k => ⟨verdict (before.toList ++ x.outputs fuel) (x.ending fuel),
          (x.after fuel).machine, k⟩) cutShort
        ((List.range (x.executed fuel).length).map fun j => noteOf x before.toList (j + 1)) k := by
  induction fuel generalizing x before k with
  | zero => simp [traceFrom, Execution.ending, verdict, Execution.after, Execution.executed,
      Execution.history, Shell.tell]
  | succ fuel ih =>
    rcases x.next_cases with h | ⟨i, o, n, t, h, he⟩ | ⟨i, e, n, t, h, he⟩
    · simp only [traceFrom, Execution.step_of_over h, Execution.ending_succ_of_over h,
        Execution.outputs_of_over h, Execution.after_succ_of_over h, Execution.executed_of_over h]
      simp [verdict, Shell.tell]
    · have hline := snapshotLine_eq (⟨x.program, n, t, false⟩ : Execution μ ι Backlog)
        (before ++ o.toArray)
      have hnote (j : Nat) : noteOf x before.toList (j + 1) =
          noteOf ⟨x.program, n, t, false⟩ (before ++ o.toArray).toList j := by
        simp [noteOf, Execution.after_succ_of_ok h he, snapshotAt_succ h he]
      simp only [traceFrom, Execution.step_of_ok h he, Execution.ending_succ_of_ok h he,
        Execution.after_succ_of_ok h he, Execution.outputs_succ_of_ok h he,
        Execution.executed_succ_of_ok h he, List.length_cons, List.range_succ_eq_map, List.map_cons,
        List.map_map, Shell.tell, hnote]
      rw [show (noteOf _ _ 0).text = _ from hline.symm]
      rcases Sink.write_cases (snapshotLine ⟨x.program, n, t, false⟩ (before ++ o.toArray)) k with
        ⟨k', hw⟩ | ⟨bytes, hw⟩
      · simp only [hw, ih]
        simp [Function.comp_def]
      · simp only [hw]
        rfl
    · simp only [traceFrom, Execution.step_of_error h he, Execution.ending_succ_of_error h he,
        Execution.outputs_of_error h he, Execution.after_succ_of_error h he,
        Execution.executed_of_error h he]
      simp [verdict, Shell.tell]

theorem traceProgram_eq_tell (fuel : Nat) (p : Program ι) (m : μ) (xs : List Word) (k : Sink) :
    let x := Execution.start p m (Backlog.mk xs)
    traceProgram fuel p m xs k =
      Shell.tell (fun k => ⟨verdict (x.outputs fuel) (x.ending fuel), (x.after fuel).machine, k⟩) cutShort
        (traceNotes x fuel) k := by
  intro x
  have hline := snapshotLine_eq x #[]
  rw [traceNotes, List.range_succ_eq_map, List.map_cons, List.map_map, Shell.tell,
    show (noteOf x [] 0).text = snapshotLine x #[] from hline.symm]
  rcases Sink.write_cases (snapshotLine x #[]) k with ⟨k', hw⟩ | ⟨bytes, hw⟩
  · simp only [traceProgram, x, hw, traceFrom_eq_tell]
    rfl
  · simp only [traceProgram, x, hw]
    rfl

theorem traceProgram_free (fuel : Nat) (p : Program ι) (m : μ) (xs : List Word) :
    let x := Execution.start p m (Backlog.mk xs)
    traceProgram fuel p m xs ⟨.empty, none⟩ =
      ⟨verdict (x.outputs fuel) (x.ending fuel), (x.after fuel).machine,
        ⟨bytesOf (traceNotes x fuel), none⟩⟩ := by
  intro x
  rw [traceProgram_eq_tell, Shell.tell_unlimited, ByteArray.empty_append]

theorem traceProgram_bound (fuel : Nat) (p : Program ι) (m : μ) (xs : List Word) (room : Nat) :
    let x := Execution.start p m (Backlog.mk xs)
    let bytes := bytesOf (traceNotes x fuel)
    traceProgram fuel p m xs ⟨.empty, some room⟩ =
      match noteAt? (traceNotes x fuel) room with
      | none => ⟨verdict (x.outputs fuel) (x.ending fuel), (x.after fuel).machine,
          ⟨bytes, some (room - bytes.size)⟩⟩
      | some n => ⟨some (.error (.io .writeZero)), n.machine, ⟨bytes.extract 0 room, some 0⟩⟩ := by
  intro x bytes
  rw [traceProgram_eq_tell, Shell.tell_limited]
  simp only [ByteArray.empty_append]
  rfl

section Notes

variable (x : Execution μ ι Backlog) {j fuel room : Nat}

theorem length_traceNotes (fuel : Nat) :
    (traceNotes x fuel).length = (x.executed fuel).length + 1 := by
  simp [traceNotes]

theorem traceNotes_ne {n : Note μ} (h : n ∈ traceNotes x fuel) : n.text ≠ "" := by
  obtain ⟨k, -, rfl⟩ := List.mem_map.1 h
  simp [noteOf, snapshotAt]

theorem traceNotes_append (hj : j ≤ fuel) :
    ∃ later, traceNotes x fuel = traceNotes x j ++ later := by
  have hlen : (x.executed j).length ≤ (x.executed fuel).length := by
    rw [x.executed_take hj, List.length_take]
    omega
  obtain ⟨d, hd⟩ := Nat.exists_eq_add_of_le hlen
  refine ⟨((List.range d).map ((x.executed j).length + 1 + ·)).map (noteOf x []), ?_⟩
  rw [traceNotes, traceNotes, ← List.map_append, ← List.range_add, hd, Nat.add_right_comm]

theorem extract_traceNotes (hj : j ≤ fuel) (h : room ≤ (bytesOf (traceNotes x j)).size) :
    (bytesOf (traceNotes x fuel)).extract 0 room = (bytesOf (traceNotes x j)).extract 0 room := by
  obtain ⟨later, hl⟩ := traceNotes_append x hj
  rw [hl, Shell.extract_bytesOf_append h]

/-- A trace whose lines all fit has ended: there would be more lines than bytes. -/
theorem ended_of_fits (hroom : room ≤ fuel) (h : noteAt? (traceNotes x fuel) room = none) :
    x.ending fuel ≠ .unfinished := by
  intro hend
  have hsize := (Shell.noteAt?_eq_none_iff _ _).1 h
  have hlen : (traceNotes x fuel).length ≤ _ :=
    Shell.length_le_size fun n hn => traceNotes_ne x hn
  rw [length_traceNotes, Execution.length_executed_of_unfinished hend] at hlen
  omega

theorem index_of_traceNotes {n : Note μ} (h : noteAt? (traceNotes x fuel) room = some n) :
    ∃ j ≤ fuel, (x.executed j).length = j ∧ n = noteOf x [] j ∧
      (bytesOf ((List.range j).map (noteOf x []))).size ≤ room ∧
      room < (bytesOf (traceNotes x j)).size := by
  obtain ⟨j, hj, hle, hlt⟩ := Shell.index_of_noteAt? h
  obtain ⟨hlt', hn⟩ := List.getElem?_eq_some_iff.1 hj
  rw [length_traceNotes] at hlt'
  have hlen : (x.executed fuel).length ≤ fuel := by
    rw [x.executed_take (Nat.le_refl fuel)]
    exact List.length_take_le _ _
  have hsteps : (x.executed j).length = j := by
    rw [x.executed_take (show j ≤ fuel by omega), List.length_take]
    omega
  have htake {i : Nat} (hi : i ≤ (x.executed fuel).length + 1) :
      (traceNotes x fuel).take i = (List.range i).map (noteOf x []) := by
    rw [traceNotes, ← List.map_take, List.take_range, Nat.min_eq_left hi]
  refine ⟨j, by omega, hsteps, ?_, ?_, ?_⟩
  · simpa [traceNotes] using hn.symm
  · rwa [htake (by omega)] at hle
  · rwa [htake (by omega), ← hsteps, ← traceNotes] at hlt

end Notes

theorem traceProgram_settled {fuel room : Nat} (h : room ≤ fuel) (p : Program ι) (m : μ)
    (xs : List Word) :
    traceProgram fuel p m xs ⟨.empty, some room⟩ = traceProgram room p m xs ⟨.empty, some room⟩ := by
  rw [traceProgram_bound, traceProgram_bound]
  generalize Execution.start p m (Backlog.mk xs) = x
  cases hn : noteAt? (traceNotes x room) room with
  | none =>
    have hend := ended_of_fits x (Nat.le_refl room) hn
    obtain ⟨hh, ha⟩ := Execution.after_of_ended h hend
    have hnotes : traceNotes x fuel = traceNotes x room := by
      simp only [traceNotes, Execution.executed, hh]
    simp only [hnotes, hn, Execution.outputs, hh, ha, Execution.ending_mono h hend]
  | some n =>
    obtain ⟨later, hl⟩ := traceNotes_append x h
    have hsize : room ≤ (bytesOf (traceNotes x room)).size := by
      apply Nat.le_of_not_lt
      intro hlt
      simp [(Shell.noteAt?_eq_none_iff _ _).2 (Nat.le_of_lt hlt)] at hn
    simp only [hl, Shell.noteAt?_append hn, Shell.extract_bytesOf_append hsize]

theorem traceProgram_fits {fuel room : Nat} {p : Program ι} {m : μ} {xs : List Word}
    {x : Execution μ ι Backlog} (hx : Execution.start p m (Backlog.mk xs) = x)
    (hend : x.ending fuel ≠ .unfinished) (hfits : (bytesOf (traceNotes x fuel)).size ≤ room) :
    let bytes := bytesOf (traceNotes x fuel)
    traceProgram room p m xs ⟨.empty, some room⟩ =
      ⟨verdict (x.outputs fuel) (x.ending fuel), (x.after fuel).machine,
        ⟨bytes, some (room - bytes.size)⟩⟩ := by
  -- with enough steps to reach the end, and at least as many as bytes
  have hfuel := Nat.le_max_left fuel room
  obtain ⟨hh, ha⟩ := Execution.after_of_ended hfuel hend
  have hnotes : traceNotes x (max fuel room) = traceNotes x fuel := by
    simp only [traceNotes, Execution.executed, hh]
  have hout : x.outputs (max fuel room) = x.outputs fuel := by simp only [Execution.outputs, hh]
  have hall := (Shell.noteAt?_eq_none_iff _ _).2 hfits
  rw [← traceProgram_settled (Nat.le_max_right fuel room), traceProgram_bound, hx]
  simp only [hnotes, hall, hout, ha, Execution.ending_mono hfuel hend]

end Session

/-- A trace on a sink with room for `n` bytes ends within `n` steps. Either it is the
trace on a sink without a limit, or it fails at the first line that does not fit, with
the first `n` bytes of that trace and the machine after as many steps as lines fit. -/
theorem full_sink_ends_the_trace (kind : Kind) (p : Program kind.Instruction) (m : kind.Machine)
    (xs : List Word) (room : Nat) :
    let x := Execution.start p m (Backlog.mk xs)
    let line k := Model.snapshot (x.after k).machine (x.after k).input.values (x.outputs k) ++ "\n"
    let text k := (String.join ((List.range k).map line)).toUTF8
    let free fuel := Session.traceProgram fuel p m xs ⟨.empty, none⟩
    let bound := Session.traceProgram room p m xs ⟨.empty, some room⟩
    (∀ fuel, (free fuel).sink.bytes = text ((x.executed fuel).length + 1)) ∧
    bound.result ≠ none ∧
    (∀ fuel ≥ room, Session.traceProgram fuel p m xs ⟨.empty, some room⟩ = bound) ∧
    (∀ fuel, (free fuel).result ≠ none → (free fuel).sink.bytes.size ≤ room →
      bound.result = (free fuel).result ∧ bound.machine = (free fuel).machine ∧
      bound.sink.bytes = (free fuel).sink.bytes) ∧
    ((∀ fuel, (free fuel).result ≠ none → room < (free fuel).sink.bytes.size) →
      bound.result = some (.error (.io .writeZero)) ∧
      ∃ j ≤ room, (x.executed j).length = j ∧
        (text j).size ≤ room ∧ room < (text (j + 1)).size ∧ bound.machine = (x.after j).machine ∧
        ∀ fuel ≥ j, bound.sink.bytes = (free fuel).sink.bytes.extract 0 room) := by
  intro x line text free bound
  have hfree (fuel : Nat) : free fuel = _ := Session.traceProgram_free fuel p m xs
  have hbound : bound = _ := Session.traceProgram_bound room p m xs room
  have htext (k : Nat) : text k = Shell.bytesOf ((List.range k).map (Session.noteOf x [])) := by
    rw [Shell.bytesOf, List.map_map]
    rfl
  have hbytes (fuel : Nat) : (free fuel).sink.bytes = Shell.bytesOf (Session.traceNotes x fuel) := by
    rw [hfree]
  have hended (fuel : Nat) : (free fuel).result ≠ none ↔ x.ending fuel ≠ .unfinished := by
    rw [hfree]
    exact Session.verdict_ne_none_iff _ _
  refine ⟨fun fuel => ?_, ?_, fun fuel hle => ?_, fun fuel hend hfits => ?_, fun hlong => ?_⟩
  · rw [hbytes, htext]
    rfl
  · rw [hbound]
    cases hn : Shell.noteAt? (Session.traceNotes x room) room with
    | none => exact (Session.verdict_ne_none_iff _ _).2 (Session.ended_of_fits x (Nat.le_refl room) hn)
    | some n => simp
  · exact Session.traceProgram_settled hle p m xs
  · rw [hended] at hend
    rw [hbytes] at hfits
    rw [show bound = _ from Session.traceProgram_fits rfl hend hfits, hfree]
    exact ⟨rfl, rfl, rfl⟩
  · cases hn : Shell.noteAt? (Session.traceNotes x room) room with
    | none =>
      have hend := (hended room).2 (Session.ended_of_fits x (Nat.le_refl room) hn)
      have hsize := hlong room hend
      rw [hbytes] at hsize
      exact absurd hsize (Nat.not_lt.2 ((Shell.noteAt?_eq_none_iff _ _).1 hn))
    | some n =>
      obtain ⟨j, hj, hsteps, rfl, hle, hlt⟩ := Session.index_of_traceNotes x hn
      have hcut : bound = ⟨_, _, ⟨_, _⟩⟩ := hbound.trans (by rw [hn])
      rw [hcut]
      refine ⟨rfl, j, hj, hsteps, by rwa [htext], ?_, rfl, fun fuel hfuel => ?_⟩
      · rwa [htext, ← hsteps, ← Session.traceNotes]
      · rw [hbytes, Session.extract_traceNotes x hfuel (Nat.le_of_lt hlt),
          Session.extract_traceNotes x hj (Nat.le_of_lt hlt)]

def circle : Program Kind.am1.Instruction := ⟨#[AM1.Instruction.jmp 1]⟩

def literal : Program Kind.am0.Instruction := ⟨#[(⟨.lit, 5⟩ : AM0.Instruction)]⟩

theorem circle_cut_short :
    let m : Kind.am1.Machine := Model.initial
    let free := Session.traceProgram 60 circle m [] ⟨.empty, none⟩
    let bound := Session.traceProgram 50 circle m [] ⟨.empty, some 50⟩
    let m' : Kind.am0.Machine := Model.initial
    let short := Session.traceProgram 2 literal m' [] ⟨.empty, none⟩
    let ample := Session.traceProgram 41 literal m' [] ⟨.empty, some 41⟩
    bound.result = some (.error (.io .writeZero)) ∧ bound.machine = m ∧
    bound.sink.bytes = free.sink.bytes.extract 0 50 ∧
    Session.traceProgram 99 circle m [] ⟨.empty, some 50⟩ = bound ∧
    short.sink.bytes.size = 41 ∧ ample.result = short.result ∧
    ample.sink.bytes = short.sink.bytes := by
  intro m free bound m' short ample
  obtain ⟨-, -, hsettled, -, hcut⟩ := full_sink_ends_the_trace .am1 circle m [] 50
  obtain ⟨-, -, -, hfits, -⟩ := full_sink_ends_the_trace .am0 literal m' [] 41
  let x := Execution.start circle m (Backlog.mk [])
  have hstep : x.step = (some (.ok none), x) := rfl
  have hafter (k : Nat) : x.after k = x := Execution.after_of_still (by rw [hstep]) k
  have hending : ∀ k, x.ending k = .unfinished := by
    intro k
    induction k with
    | zero => rfl
    | succ k ih => simp only [Execution.ending, hstep, ih]
  have hendless : ∀ fuel, (Session.traceProgram fuel circle m [] ⟨.empty, none⟩).result = none := by
    intro fuel
    rw [Session.traceProgram_free, hending]
    rfl
  obtain ⟨hresult, j, hj, -, -, -, hm, hbytes⟩ := hcut fun fuel h => absurd (hendless fuel) h
  dsimp only at hbytes hfits
  dsimp only [free, bound, short, ample]
  have hsize : (Session.traceProgram 2 literal m' [] ⟨.empty, none⟩).sink.bytes.size = 41 := by
    decide +kernel
  have hended : (Session.traceProgram 2 literal m' [] ⟨.empty, none⟩).result ≠ none := by
    decide +kernel
  obtain ⟨hsame, -, htext⟩ := hfits 2 hended (Nat.le_of_eq hsize)
  refine ⟨hresult, ?_, hbytes 60 (by omega), hsettled 99 (by omega), hsize, hsame, htext⟩
  rw [hm, hafter]
  rfl

end AbstractMachines
