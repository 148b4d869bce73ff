import AbstractMachines.Proofs.Texts
import AbstractMachines.Proofs.Tracing

/-!
# Machines that can be read off their text

A way to write things down is legible if what was written can be told from the
text and from what follows it. Numbers are legible before anything that does not
go on with a digit or a sign. Lists and memories close with a bracket, so they are
legible before anything, though the same comma stands inside and between them. A
snapshot is made of these, and so is the report of a machine's state: from either
one the whole configuration can be recovered. A trace is a sequence of snapshots,
and its text tells every configuration that it went through.
-/

namespace AbstractMachines
namespace Text

/-- What `f` writes can be told from the text wherever the rest satisfies `p`. -/
def Legible {α : Type} (p : List Char → Prop) (f : α → List Char) : Prop :=
  ∀ ⦃a b : α⦄ ⦃r s : List Char⦄, p r → p s → f a ++ r = f b ++ s → a = b ∧ r = s

def Anything (_ : List Char) : Prop := True

def Unnumbered (cs : List Char) : Prop := ∀ c ∈ cs.head?, c ≠ '-' ∧ c.isDigit = false

theorem unnumbered_comma (r : List Char) : Unnumbered (", ".toList ++ r) := by
  simp [Unnumbered]

section Legible

variable {α : Type} {p q : List Char → Prop} {f : α → List Char}

theorem Legible.after (hf : Legible p f) {front : List Char} {a b : α} {r s : List Char} (hr : p r)
    (hs : p s) (h : front ++ (f a ++ r) = front ++ (f b ++ s)) : a = b ∧ r = s :=
  hf hr hs (List.append_cancel_left h)

theorem flatMap_append_of (hp : ∀ a r, p (f a ++ r)) (xs : List α) {r : List Char} (hr : p r) :
    p (xs.flatMap f ++ r) := by
  cases xs with
  | nil => exact hr
  | cons x xs =>
    rw [List.flatMap_cons, List.append_assoc]
    exact hp x _

theorem Legible.flatMap (hf : Legible p f) (hp : ∀ a r, p (f a ++ r)) (hq : ∀ r, q r → p r)
    (hitem : ∀ a r s, q s → f a ++ r ≠ s) : Legible q (List.flatMap f) := by
  intro xs ys r s hr hs h
  induction xs generalizing ys with
  | nil =>
    cases ys with
    | nil => exact ⟨rfl, h⟩
    | cons y ys =>
      rw [List.flatMap_cons, List.append_assoc] at h
      exact absurd h.symm (hitem y _ _ hr)
  | cons x xs ih =>
    cases ys with
    | nil =>
      rw [List.flatMap_cons, List.append_assoc] at h
      exact absurd h (hitem x _ _ hs)
    | cons y ys =>
      rw [List.flatMap_cons, List.flatMap_cons, List.append_assoc, List.append_assoc] at h
      obtain ⟨rfl, hlater⟩ :=
        hf (flatMap_append_of hp xs (hq r hr)) (flatMap_append_of hp ys (hq s hs)) h
      obtain ⟨rfl, hrest⟩ := ih hlater
      exact ⟨rfl, hrest⟩

def joined (sep : List Char) (f : α → List Char) (xs : List α) : List Char :=
  sep.intercalate (xs.map f)

theorem joined_cons (sep : List Char) (f : α → List Char) (x : α) (xs : List α) :
    joined sep f (x :: xs) = f x ++ xs.flatMap fun y => sep ++ f y := by
  induction xs generalizing x with
  | nil => simp [joined]
  | cons y ys ih =>
    have hlater := ih y
    simp only [joined, List.map_cons] at hlater ⊢
    rw [List.intercalate_cons_cons, hlater, List.flatMap_cons, List.append_assoc, List.append_assoc]

theorem Legible.joined (hf : Legible p f) {sep : List Char} (hsep : ∀ r, p (sep ++ r))
    (hq : ∀ r, q r → p r) (hend : ∀ r s, q s → sep ++ r ≠ s)
    (hitem : ∀ a r s, q s → f a ++ r ≠ s) : Legible q (Text.joined sep f) := by
  have hp : ∀ a r, p (sep ++ f a ++ r) := by
    intro a r
    rw [List.append_assoc]
    exact hsep _
  have hlater : Legible q (List.flatMap fun x => sep ++ f x) := by
    refine Legible.flatMap (p := p) (fun a b r s hr hs h => ?_) hp hq fun a r s hs => ?_
    · rw [List.append_assoc, List.append_assoc] at h
      exact hf hr hs (List.append_cancel_left h)
    · rw [List.append_assoc]
      exact hend _ s hs
  intro xs ys r s hr hs h
  cases xs with
  | nil =>
    cases ys with
    | nil => exact ⟨rfl, h⟩
    | cons y ys =>
      rw [joined_cons, List.append_assoc] at h
      exact absurd h.symm (hitem y _ _ hr)
  | cons x xs =>
    cases ys with
    | nil =>
      rw [joined_cons, List.append_assoc] at h
      exact absurd h (hitem x _ _ hs)
    | cons y ys =>
      rw [joined_cons, joined_cons, List.append_assoc, List.append_assoc] at h
      obtain ⟨rfl, hrest⟩ :=
        hf (flatMap_append_of hp xs (hq r hr)) (flatMap_append_of hp ys (hq s hs)) h
      obtain ⟨rfl, hrs⟩ := hlater hr hs hrest
      exact ⟨rfl, hrs⟩

theorem not_mem_joined {c : Char} {sep : List Char} (hsep : c ∉ sep) (hf : ∀ a, c ∉ f a)
    (xs : List α) : c ∉ joined sep f xs := by
  cases xs with
  | nil => simp [joined]
  | cons x xs =>
    rw [joined_cons, List.mem_append, List.mem_flatMap]
    rintro (hc | ⟨y, -, hc⟩)
    · exact hf x hc
    · exact (List.mem_append.1 hc).elim hsep (hf y)

end Legible
end Text

namespace Word

open Text

theorem numeral_of_mem_text {w : Word} {c : Char} (h : c ∈ w.text.toList) :
    (c == '-' || c.isDigit) = true := by
  rcases mem_text h with rfl | hdigit
  · rfl
  · simp [hdigit]

theorem takeWhile_numeral (w : Word) {r : List Char} (hr : Unnumbered r) :
    (w.text.toList ++ r).takeWhile (fun c => c == '-' || c.isDigit) = w.text.toList := by
  rw [List.takeWhile_append_of_pos fun c hc => numeral_of_mem_text hc]
  cases r with
  | nil => simp
  | cons d ds =>
    obtain ⟨hsign, hdigit⟩ := hr d rfl
    simp [hsign, hdigit]

theorem text_legible : Legible Unnumbered fun w : Word => w.text.toList := by
  intro v w r s hr hs h
  have htext : v.text.toList = w.text.toList := by
    rw [← takeWhile_numeral v hr, ← takeWhile_numeral w hs, h]
  obtain rfl : v = w := by
    have hread := ofText?_text v
    rw [htext, ofText?_text] at hread
    exact (Option.some.inj hread).symm
  exact ⟨rfl, List.append_cancel_left h⟩

theorem text_append_ne (w : Word) {r s : List Char} (hs : Unnumbered s) :
    w.text.toList ++ r ≠ s := by
  intro h
  obtain ⟨c, cs, hc⟩ := List.exists_cons_of_ne_nil w.tidy_text.nonempty
  have hnumeral := numeral_of_mem_text (w := w) (c := c) (by rw [hc]; exact List.mem_cons_self)
  obtain ⟨hsign, hdigit⟩ := hs c (by rw [← h, hc]; rfl)
  simp [hsign, hdigit] at hnumeral

end Word

namespace Text

def bracketed {α : Type} (opening closing : Char) (f : α → List Char) (xs : List α) : List Char :=
  opening :: joined [',', ' '] f xs ++ [closing]

theorem Legible.bracketed {α : Type} {f : α → List Char} (hf : Legible Unnumbered f)
    (hitem : ∀ a r s, Unnumbered s → f a ++ r ≠ s) (opening : Char) {closing : Char}
    (hclose : Unnumbered [closing]) (hcomma : closing ≠ ',') :
    Legible Anything (Text.bracketed opening closing f) := by
  have hq : ∀ r : List Char, r.head? = some closing → Unnumbered r := by
    intro r hr
    simpa [Unnumbered, hr] using hclose
  have hlist : Legible (fun r => r.head? = some closing) (Text.joined [',', ' '] f) := by
    refine Legible.joined hf (fun r => ?_) hq (fun r s hs h => ?_) fun a r s hs => hitem a r s (hq s hs)
    · simp [Unnumbered]
    · rw [← h] at hs
      exact hcomma (Option.some.inj hs).symm
  intro xs ys r s _ _ h
  simp only [Text.bracketed, List.cons_append, List.append_assoc, List.cons.injEq, true_and,
    List.nil_append] at h
  obtain ⟨rfl, hrest⟩ := hlist (by rfl) (by rfl) h
  exact ⟨rfl, (List.cons.inj hrest).2⟩

theorem not_mem_bracketed {α : Type} {f : α → List Char} {c opening closing : Char}
    (hopen : c ≠ opening) (hclose : c ≠ closing) (hsep : c ∉ [',', ' ']) (hf : ∀ a, c ∉ f a)
    (xs : List α) : c ∉ bracketed opening closing f xs := by
  simp [bracketed, hopen, hclose, not_mem_joined hsep hf xs]

end Text

namespace Word

open Text

theorem newline_not_mem_text (w : Word) : '\n' ∉ w.text.toList := fun h => by
  simpa using numeral_of_mem_text h

theorem toList_listText (ws : List Word) :
    (listText ws).toList = bracketed '[' ']' (fun w => w.text.toList) ws := by
  simp [listText, bracketed, joined, String.toList_intercalate, Function.comp_def]

theorem listText_legible : Legible Anything fun ws => (listText ws).toList := by
  simp only [toList_listText]
  exact text_legible.bracketed (fun w _ _ hs => w.text_append_ne hs) '[' (by simp [Unnumbered])
    (by decide)

theorem newline_not_mem_listText (ws : List Word) : '\n' ∉ (listText ws).toList := by
  rw [toList_listText]
  exact not_mem_bracketed (by decide) (by decide) (by decide) newline_not_mem_text ws

end Word

namespace AM0

open Text Word

def cellText (mark : List Char) (c : Word × Word) : List Char :=
  c.1.text.toList ++ (mark ++ c.2.text.toList)

theorem cellText_legible {mark : List Char} (hmark : ∀ r, Unnumbered (mark ++ r)) :
    Legible Unnumbered (cellText mark) := by
  rintro ⟨a, v⟩ ⟨b, w⟩ r s hr hs h
  simp only [cellText, List.append_assoc] at h
  obtain ⟨rfl, hrest⟩ := text_legible (hmark _) (hmark _) h
  obtain ⟨rfl, hrs⟩ := text_legible hr hs (List.append_cancel_left hrest)
  exact ⟨rfl, hrs⟩

theorem Memory.ext_cells {m n : Memory} (h : m.cells = n.cells) : m = n := by
  obtain ⟨cells, hc⟩ := m
  obtain rfl : cells = n.cells := h
  rfl

namespace Machine

theorem toList_memoryText (m : Memory) :
    (memoryText m).toList = bracketed '\x7b' '\x7d' (cellText [':', ' ']) m.cells := by
  simp [memoryText, bracketed, joined, String.toList_intercalate, Function.comp_def]
  rfl

theorem memoryText_legible : Legible Anything fun m => (memoryText m).toList := by
  have hcells : Legible Anything (bracketed '\x7b' '\x7d' (cellText [':', ' '])) := by
    refine (cellText_legible fun r => by simp [Unnumbered]).bracketed (fun c r s hs => ?_) _
      (by simp [Unnumbered]) (by decide)
    rw [cellText, List.append_assoc]
    exact text_append_ne _ hs
  intro m n r s hr hs h
  simp only [toList_memoryText] at h
  obtain ⟨hmn, hrs⟩ := hcells hr hs h
  exact ⟨Memory.ext_cells hmn, hrs⟩

theorem newline_not_mem_memoryText (m : Memory) : '\n' ∉ (memoryText m).toList := by
  rw [toList_memoryText]
  refine not_mem_bracketed (by decide) (by decide) (by decide) (fun c hmem => ?_) _
  simp [cellText, newline_not_mem_text] at hmem

theorem ext_parts {m n : Machine} (hcounter : m.counter = n.counter)
    (hstack : m.stack.reverse = n.stack.reverse) (hmemory : m.memory = n.memory) : m = n := by
  obtain ⟨⟨counter, stack⟩, memory⟩ := m
  obtain ⟨⟨counter', stack'⟩, memory'⟩ := n
  obtain rfl : stack = stack' := List.reverse_inj.1 hstack
  obtain rfl : counter = counter' := hcounter
  obtain rfl : memory = memory' := hmemory
  rfl

theorem snapshot_legible :
    Legible Anything fun c : Machine × List Word × List Word =>
      (snapshot c.1 c.2.1 c.2.2).toList := by
  rintro ⟨m, input, output⟩ ⟨n, input', output'⟩ r s - - h
  delta snapshot at h
  simp only [String.toList_append, List.append_assoc] at h
  obtain ⟨hcounter, h₁⟩ := text_legible.after (unnumbered_comma _) (unnumbered_comma _) h
  obtain ⟨hstack, h₂⟩ := listText_legible.after trivial trivial h₁
  obtain ⟨hmemory, h₃⟩ := memoryText_legible.after trivial trivial h₂
  obtain ⟨hinput, h₄⟩ := listText_legible.after trivial trivial h₃
  obtain ⟨houtput, h₅⟩ := listText_legible.after trivial trivial h₄
  have hm : m = n := ext_parts hcounter hstack hmemory
  exact ⟨by rw [hm, hinput, houtput], List.append_cancel_left h₅⟩

theorem newline_not_mem_snapshot (m : Machine) (input output : List Word) :
    '\n' ∉ (snapshot m input output).toList := by
  delta snapshot
  simp [newline_not_mem_text, newline_not_mem_listText, newline_not_mem_memoryText]

theorem cellLines_legible :
    Legible (fun r => r = []) (joined ['\n'] fun c => '\t' :: cellText [' ', ':', '=', ' '] c) := by
  refine Legible.joined (p := Unnumbered) (fun a b r s hr hs h => ?_) (fun r => ?_) ?_ ?_ ?_
  · exact cellText_legible (fun r => by simp [Unnumbered]) hr hs (List.cons.inj h).2
  · simp [Unnumbered]
  · rintro r rfl
    simp [Unnumbered]
  · rintro r s rfl
    simp
  · rintro c r s rfl
    simp

theorem toList_status (m : Machine) :
    m.status.toList = "Counter: ".toList ++ (m.counter.text.toList ++ ("\nStack: ".toList ++
      ((listText m.stack.reverse).toList ++ ("\nMemory:\n".toList ++
        joined ['\n'] (fun c => '\t' :: cellText [' ', ':', '=', ' '] c) m.memory.cells)))) := by
  delta status
  simp [joined, String.toList_intercalate, Function.comp_def]
  rfl

theorem status_injective : Function.Injective status := by
  intro m n h
  have htext := congrArg String.toList h
  rw [toList_status, toList_status] at htext
  obtain ⟨hcounter, h₁⟩ := text_legible.after (by simp [Unnumbered]) (by simp [Unnumbered]) htext
  obtain ⟨hstack, h₂⟩ := listText_legible.after trivial trivial h₁
  obtain ⟨hcells, -⟩ := cellLines_legible (r := []) (s := []) rfl rfl
    (by simpa using List.append_cancel_left h₂)
  exact ext_parts hcounter hstack (Memory.ext_cells hcells)

end Machine
end AM0

namespace AM1
namespace Machine

open Text Word

theorem ext_parts {m n : Machine} (hcounter : m.counter = n.counter)
    (hstack : m.stack.reverse = n.stack.reverse) (hruntime : m.runtime.toList = n.runtime.toList)
    (href : m.reference = n.reference) : m = n := by
  obtain ⟨⟨counter, stack⟩, runtime, reference⟩ := m
  obtain ⟨⟨counter', stack'⟩, runtime', reference'⟩ := n
  obtain rfl : counter = counter' := hcounter
  obtain rfl : stack = stack' := List.reverse_inj.1 hstack
  obtain rfl : runtime = runtime' := Array.toList_inj.1 hruntime
  obtain rfl : reference = reference' := href
  rfl

theorem snapshot_legible :
    Legible Anything fun c : Machine × List Word × List Word =>
      (snapshot c.1 c.2.1 c.2.2).toList := by
  rintro ⟨m, input, output⟩ ⟨n, input', output'⟩ r s - - h
  delta snapshot at h
  simp only [String.toList_append, List.append_assoc] at h
  obtain ⟨hcounter, h₁⟩ := text_legible.after (unnumbered_comma _) (unnumbered_comma _) h
  obtain ⟨hstack, h₂⟩ := listText_legible.after trivial trivial h₁
  obtain ⟨hruntime, h₃⟩ := listText_legible.after trivial trivial h₂
  obtain ⟨href, h₄⟩ := text_legible.after (unnumbered_comma _) (unnumbered_comma _) h₃
  obtain ⟨hinput, h₅⟩ := listText_legible.after trivial trivial h₄
  obtain ⟨houtput, h₆⟩ := listText_legible.after trivial trivial h₅
  have hm : m = n := ext_parts hcounter hstack hruntime href
  exact ⟨by rw [hm, hinput, houtput], List.append_cancel_left h₆⟩

theorem newline_not_mem_snapshot (m : Machine) (input output : List Word) :
    '\n' ∉ (snapshot m input output).toList := by
  delta snapshot
  simp [newline_not_mem_text, newline_not_mem_listText]

theorem status_injective : Function.Injective status := by
  intro m n h
  have htext : m.status.toList = n.status.toList := by rw [h]
  delta status at htext
  simp only [String.toList_append, List.append_assoc] at htext
  obtain ⟨hcounter, h₁⟩ := text_legible.after (by simp [Unnumbered]) (by simp [Unnumbered]) htext
  obtain ⟨hstack, h₂⟩ := listText_legible.after trivial trivial h₁
  obtain ⟨hruntime, h₃⟩ := listText_legible.after trivial trivial h₂
  obtain ⟨href, -⟩ := text_legible (r := []) (s := []) (by simp [Unnumbered]) (by simp [Unnumbered])
    (by simpa using List.append_cancel_left h₃)
  exact ext_parts hcounter hstack hruntime href

end Machine
end AM1

theorem Sink.bytes_write {s : String} {k k' : Sink} (h : k.write s = (.ok (), k')) :
    k'.bytes = k.bytes ++ s.toUTF8 := by
  obtain ⟨bytes, room⟩ := k
  unfold write at h
  split at h
  · next hk =>
    cases hk
    cases h
    rfl
  · next hk =>
    cases hk
    split at h
    · cases h
      rfl
    · cases h

namespace Session

open Text

variable {μ ι : Type} [Model μ ι]

/-- What a machine and its surroundings look like after each of the first steps:
the machine, the words still to be read and the words written. -/
def configurations (fuel : Nat) (x : Execution μ ι Backlog) : List (μ × List Word × List Word) :=
  (List.range ((x.executed fuel).length + 1)).map fun k =>
    ((x.after k).machine, (x.after k).input.values, x.outputs k)

theorem traceFrom_bytes (fuel : Nat) (x : Execution μ ι Backlog) (before : Array Word) (sink : Sink)
    (h : ∀ e, (traceFrom fuel x before sink).result ≠ some (.error (.io e))) :
    (traceFrom fuel x before sink).sink.bytes =
      sink.bytes ++ (String.join ((List.range (x.executed fuel).length).map fun k =>
        snapshotAt x before.toList (k + 1))).toUTF8 := by
  induction fuel generalizing x before sink with
  | zero => simp [traceFrom, Execution.executed, Execution.history]
  | succ fuel ih =>
    rcases x.next_cases with hx | ⟨i, o, n, t, hx, he⟩ | ⟨i, e, n, t, hx, he⟩
    · simp [traceFrom, Execution.step_of_over hx, Execution.executed_of_over hx]
    · have hline := snapshotLine_eq (⟨x.program, n, t, false⟩ : Execution μ ι Backlog)
        (before ++ o.toArray)
      simp only [traceFrom, Execution.step_of_ok hx he] at h ⊢
      rcases hw : sink.write (snapshotLine ⟨x.program, n, t, false⟩ (before ++ o.toArray)) with
        ⟨e | _, k⟩
      · simp [hw] at h
      · simp only [hw] at h ⊢
        rw [ih _ _ _ h, Sink.bytes_write hw, hline, Execution.executed_succ_of_ok hx he,
          List.length_cons, List.range_succ_eq_map, List.map_cons, List.map_map, String.join_cons]
        simp [snapshotAt_succ hx he, String.toByteArray_append, ByteArray.append_assoc,
          Function.comp_def]
    · simp [traceFrom, Execution.step_of_error hx he, Execution.executed_of_error hx he]

theorem traceProgram_bytes (fuel : Nat) (p : Program ι) (m : μ) (xs : List Word) (sink : Sink)
    (h : ∀ e, (traceProgram fuel p m xs sink).result ≠ some (.error (.io e))) :
    (traceProgram fuel p m xs sink).sink.bytes =
      sink.bytes ++ (String.join ((configurations fuel (Execution.start p m (Backlog.mk xs))).map
        fun c => Model.snapshot c.1 c.2.1 c.2.2 ++ "\n")).toUTF8 := by
  have hline := snapshotLine_eq (Execution.start p m (Backlog.mk xs)) #[]
  simp only [traceProgram] at h ⊢
  rcases hw : sink.write (snapshotLine (Execution.start p m (Backlog.mk xs)) #[]) with ⟨e | _, k⟩
  · simp [hw] at h
  · simp only [hw] at h ⊢
    rw [traceFrom_bytes _ _ _ _ h, Sink.bytes_write hw, hline, configurations,
      List.range_succ_eq_map, List.map_cons, List.map_cons, List.map_map, List.map_map,
      String.join_cons]
    simp [snapshotAt, String.toByteArray_append, ByteArray.append_assoc, Function.comp_def]

end Session

namespace Kind

open Text

theorem snapshot_legible (kind : Kind) :
    Legible Anything fun c : kind.Machine × List Word × List Word =>
      (Model.snapshot c.1 c.2.1 c.2.2).toList := by
  cases kind with
  | am0 => exact AM0.Machine.snapshot_legible
  | am1 => exact AM1.Machine.snapshot_legible

theorem newline_not_mem_snapshot (kind : Kind) (m : kind.Machine) (input output : List Word) :
    '\n' ∉ (Model.snapshot m input output).toList := by
  cases kind with
  | am0 => exact AM0.Machine.newline_not_mem_snapshot m input output
  | am1 => exact AM1.Machine.newline_not_mem_snapshot m input output

theorem status_injective (kind : Kind) :
    Function.Injective (Model.status : kind.Machine → String) := by
  cases kind with
  | am0 => exact AM0.Machine.status_injective
  | am1 => exact AM1.Machine.status_injective

theorem lines_injective (kind : Kind) :
    Function.Injective fun cs : List (kind.Machine × List Word × List Word) =>
      String.join (cs.map fun c => Model.snapshot c.1 c.2.1 c.2.2 ++ "\n") := by
  have hline : Legible Anything fun c : kind.Machine × List Word × List Word =>
      (Model.snapshot c.1 c.2.1 c.2.2 ++ "\n").toList := by
    intro c d r s _ _ h
    simp only [String.toList_append, List.append_assoc] at h
    obtain ⟨rfl, hrest⟩ := snapshot_legible kind trivial trivial h
    exact ⟨rfl, List.append_cancel_left hrest⟩
  have hlines := hline.flatMap (q := fun r => r = []) (fun _ _ => trivial) (fun _ _ => trivial) (by
    rintro c r s rfl
    simp)
  intro cs ds h
  have htext := congrArg String.toList h
  simp only [String.toList_join, List.flatMap_map] at htext
  exact (hlines (r := []) (s := []) rfl rfl (by rw [htext])).1

end Kind

/-- Equal snapshots are of equal configurations, and a snapshot is a single line.
So the text of a trace that its sink does not stop tells all configurations from
the first to the last. Equal reports are of equal machines. -/
theorem snapshots_are_faithful (kind : Kind) :
    (∀ (m n : kind.Machine) (input input' output output' : List Word),
      Model.snapshot m input output = Model.snapshot n input' output' →
        m = n ∧ input = input' ∧ output = output') ∧
    (∀ (m : kind.Machine) (input output : List Word),
      '\n' ∉ (Model.snapshot m input output).toList) ∧
    (∀ (p p' : Program kind.Instruction) (m m' : kind.Machine) (xs xs' : List Word)
      (sink sink' : Sink) (fuel fuel' : Nat) (text : ByteArray),
      let t := Session.traceProgram fuel p m xs sink
      let t' := Session.traceProgram fuel' p' m' xs' sink'
      (∀ e, t.result ≠ some (.error (.io e))) → (∀ e, t'.result ≠ some (.error (.io e))) →
      t.sink.bytes = sink.bytes ++ text → t'.sink.bytes = sink'.bytes ++ text →
        Session.configurations fuel (Execution.start p m (Backlog.mk xs)) =
          Session.configurations fuel' (Execution.start p' m' (Backlog.mk xs'))) ∧
    (∀ m n : kind.Machine, Model.status m = Model.status n → m = n) := by
  refine ⟨fun m n input input' output output' h => ?_, kind.newline_not_mem_snapshot, ?_,
    fun m n h => kind.status_injective h⟩
  · have hsame := (kind.snapshot_legible (a := (m, input, output)) (b := (n, input', output'))
      (r := []) (s := []) trivial trivial (by simp [h])).1
    simpa using hsame
  · intro p p' m m' xs xs' sink sink' fuel fuel' text t t' hio hio' htext htext'
    rw [Session.traceProgram_bytes fuel p m xs sink hio, ByteArray.append_right_inj] at htext
    rw [Session.traceProgram_bytes fuel' p' m' xs' sink' hio', ByteArray.append_right_inj] at htext'
    exact kind.lines_injective (String.toByteArray_inj.1 (htext.trans htext'.symm))

def upwards : Kind.am0.Machine :=
  ({ memory := (AM0.Memory.empty.insert (-1) 5).insert 0 4 } : AM0.Machine)

def downwards : Kind.am0.Machine :=
  ({ memory := (AM0.Memory.empty.insert 0 4).insert (-1) 5 } : AM0.Machine)

def hop : Program Kind.am0.Instruction := ⟨#[(⟨.jmp, 3⟩ : AM0.Instruction)]⟩

def hopOver : Program Kind.am0.Instruction :=
  ⟨#[(⟨.jmp, 3⟩ : AM0.Instruction), (⟨.operator .add, 0⟩ : AM0.Instruction)]⟩

theorem hop_told_from_text :
    upwards = downwards ∧
    Session.configurations 5 (Execution.start hop upwards (Backlog.mk [7])) =
      Session.configurations 9 (Execution.start hopOver downwards (Backlog.mk [7])) := by
  obtain ⟨-, -, htrace, hstatus⟩ := snapshots_are_faithful .am0
  have hbytes : (Session.traceProgram 9 hopOver downwards [7] {}).sink.bytes =
      (Session.traceProgram 5 hop upwards [7] {}).sink.bytes := by decide +kernel
  have hended : (Session.traceProgram 5 hop upwards [7] {}).result = some (.ok []) := rfl
  have hended' : (Session.traceProgram 9 hopOver downwards [7] {}).result = some (.ok []) := rfl
  refine ⟨hstatus _ _ (by decide +kernel), htrace hop hopOver upwards downwards [7] [7] {} {} 5 9
    (Session.traceProgram 5 hop upwards [7] {}).sink.bytes ?_ ?_ ?_ ?_⟩
  · simp [hended]
  · simp [hended']
  · exact ByteArray.empty_append.symm
  · rw [hbytes]
    exact ByteArray.empty_append.symm

end AbstractMachines
