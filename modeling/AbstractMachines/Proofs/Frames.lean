import AbstractMachines.Proofs.Laws
import AbstractMachines.Proofs.Storage

/-!
# Calls and returns

A call leaves two words above the runtime stack, the number of the instruction
to return to and the caller's reference, and a return takes both from where the
reference points. Between the two, a body may do anything but spoil those words
in a frame that is still open; calls inside it are closed by returns that give
up no more parameters than were pushed in the enclosing frame. The invariant is
that the reference is that of the innermost open frame and that no slot up to it
changes unless an instruction stores a word there. It follows that a return
finds the words of its own call, whatever the body has done in between.
-/

namespace AbstractMachines

def Access.puts : Access → Bool
  | store | read => true
  | load | write => false

namespace AM1

def Instruction.isPlain : Instruction → Bool
  | call _ | ret _ => false
  | _ => true

namespace Machine

def target? (m : Machine) : Instruction → Option Word
  | .direct kind a => if kind.puts then some (m.resolve a) else none
  | .indirect kind o => if kind.puts then m.slot? (m.reference.addClamp o) else none
  | _ => none

/-- The frame and the slots of `m` are there in `n`, except for the slot at `w`. -/
structure Keeps (w : Option Word) (m n : Machine) : Prop where
  reference : n.reference = m.reference
  size : m.runtime.size ≤ n.runtime.size
  slot : ∀ a : Word, a.toInt ≤ m.runtime.size → w ≠ some a → n.slot? a = m.slot? a

theorem keeps_of_append {m n : Machine} (w : Option Word) (extra : Array Word)
    (href : n.reference = m.reference) (hrun : n.runtime = m.runtime ++ extra) :
    Keeps w m n where
  reference := href
  size := by simp [hrun]
  slot a ha _ := by
    refine slot?_congr fun hpos => ?_
    rw [hrun, Array.getElem?_append_left (by omega)]

theorem keeps_of_same {m n : Machine} (w : Option Word) (href : n.reference = m.reference)
    (hrun : n.runtime = m.runtime) : Keeps w m n :=
  keeps_of_append w #[] href (by simpa using hrun)

theorem keeps_of_assign {m n : Machine} {a v : Word} (ha : (m.slot? a).isSome)
    (href : n.reference = m.reference) (hrun : n.runtime = (m.assign a v).runtime) :
    Keeps (some a) m n where
  reference := href
  size := by simp [hrun]
  slot b _ hne := by
    have hpos := (slot?_isSome.1 ha).1
    have hb : b ≠ a := fun hba => hne (hba ▸ rfl)
    have hsame : n.slot? b = (m.assign a v).slot? b := slot?_congr fun _ => by rw [hrun]
    rw [hsame, slot?_assign_of_ne hpos hb]

theorem onCore_keeps {f : Core → Except RuntimeError Core} {m n : Machine} {o : Option Word}
    (h : onCore f m = .done n o) : Keeps none m n := by
  obtain ⟨c, rfl⟩ := onCore_done h
  exact keeps_of_same none rfl rfl

theorem access_keeps {kind : Access} {a : Word} {m n : Machine} {o : Option Word}
    (h : m.access kind a = .done n o) :
    Keeps (if kind.puts then some a else none) m n := by
  cases kind with
  | load =>
    cases hs : m.slot? a with
    | none => simp [access, hs, missing] at h
    | some v =>
      simp only [access, hs, Action.done.injEq] at h
      exact keeps_of_same _ (by rw [← h.1]) (by rw [← h.1])
  | store =>
    cases hst : m.stack with
    | nil => simp [access, hst] at h
    | cons v rest =>
      cases hs : m.slot? a with
      | none => simp [access, hst, hs, missing] at h
      | some u =>
        simp only [access, hst, hs, Action.done.injEq] at h
        exact keeps_of_assign (v := v) (by rw [hs]; rfl) (by rw [← h.1]; rfl) (by rw [← h.1]; rfl)
  | write =>
    cases hs : m.slot? a with
    | none => simp [access, hs, missing] at h
    | some v =>
      simp only [access, hs, Action.done.injEq] at h
      exact keeps_of_same _ (by rw [← h.1]; rfl) (by rw [← h.1]; rfl)
  | read =>
    cases hs : m.slot? a with
    | none => simp [access, hs, missing] at h
    | some v => simp [access, hs] at h

theorem accessIndirect_cases (kind : Access) (o : Word) (m : Machine) :
    (∃ e, m.accessIndirect kind o = .fail m e) ∨
    ∃ a, m.slot? (m.reference.addClamp o) = some a ∧ m.accessIndirect kind o = m.access kind a := by
  unfold accessIndirect
  split
  · exact Or.inl ⟨_, rfl⟩
  · simp only
    split
    · next a ha => exact Or.inr ⟨a, ha, rfl⟩
    · exact Or.inl ⟨_, rfl⟩

theorem act_done_keeps {i : Instruction} (hi : i.isPlain = true) {m n : Machine}
    {o : Option Word} (h : m.act i = .done n o) : Keeps (m.target? i) m n := by
  cases i with
  | operator op => exact onCore_keeps h
  | direct kind a =>
    rw [act] at h
    exact access_keeps h
  | indirect kind p =>
    rcases accessIndirect_cases kind p m with ⟨e, he⟩ | ⟨a, ha, he⟩
    · rw [act, he] at h
      simp at h
    · rw [act, he] at h
      rw [target?, ha]
      exact access_keeps h
  | lit v =>
    simp only [act, Action.done.injEq] at h
    exact keeps_of_same _ (by rw [← h.1]) (by rw [← h.1])
  | loada a =>
    simp only [act, Action.done.injEq] at h
    exact keeps_of_same _ (by rw [← h.1]) (by rw [← h.1])
  | push =>
    simp only [act, pushSlot] at h
    split at h
    · split at h
      · next v rest _ _ =>
        simp only [Action.done.injEq] at h
        exact keeps_of_append _ #[v] (by rw [← h.1]; rfl) (by rw [← h.1]; rfl)
      · simp [overflow] at h
    · simp at h
  | jmp t =>
    simp only [act, Action.done.injEq] at h
    exact keeps_of_same _ (by rw [← h.1]) (by rw [← h.1])
  | jmc t => exact onCore_keeps h
  | call t => simp [Instruction.isPlain] at hi
  | init count =>
    simp only [act, init] at h
    split at h
    · simp only [Action.done.injEq] at h
      exact keeps_of_append _ (.replicate count.toNatClampNeg 0) (by rw [← h.1]; rfl)
        (by rw [← h.1]; rfl)
    · simp [overflow] at h
  | ret t => simp [Instruction.isPlain] at hi

theorem access_read {kind : Access} {a b : Word} {m n : Machine}
    (h : m.access kind a = .read n b) : kind.puts = true ∧ b = a ∧ (m.slot? a).isSome := by
  cases kind with
  | load => cases hs : m.slot? a <;> simp [access, hs, missing] at h
  | store => cases hst : m.stack <;> cases hs : m.slot? a <;> simp [access, hst, hs, missing] at h
  | write => cases hs : m.slot? a <;> simp [access, hs, missing] at h
  | read =>
    cases hs : m.slot? a with
    | none => simp [access, hs, missing] at h
    | some v =>
      simp only [access, hs, Action.read.injEq] at h
      exact ⟨rfl, h.2.symm, rfl⟩

theorem act_read_target {i : Instruction} {m n : Machine} {a : Word}
    (h : m.act i = .read n a) : m.target? i = some a ∧ (m.slot? a).isSome := by
  have hact := LawfulModel.act_orderly i m
  rw [model_act, h] at hact
  obtain ⟨-, hread⟩ := hact
  cases i with
  | direct kind p =>
    rw [act] at h
    obtain ⟨hk, rfl, hs⟩ := access_read h
    exact ⟨by rw [target?, hk]; rfl, hs⟩
  | indirect kind p =>
    rcases accessIndirect_cases kind p m with ⟨e, he⟩ | ⟨b, hb, he⟩
    · rw [act, he] at h
      simp at h
    · rw [act, he] at h
      obtain ⟨hk, rfl, hs⟩ := access_read h
      exact ⟨by rw [target?, hk, hb]; rfl, hs⟩
  | _ => cases hread

theorem execute_keeps {σ : Type} [Source σ] {i : Instruction} (hi : i.isPlain = true)
    {m n : Machine} {s t : σ} {o : Option Word} (h : execute i m s = ⟨.ok o, n, t⟩) :
    Keeps (m.target? i) m n := by
  rcases execute_ok h with ⟨-, ha, -⟩ | ⟨-, -, a, v, ha, -, rfl⟩
  · exact act_done_keeps hi ha
  · obtain ⟨htarget, hs⟩ := act_read_target ha
    rw [htarget]
    exact keeps_of_assign (v := v) hs rfl rfl

theorem execute_call {σ : Type} [Source σ] {m : Machine} (h : m.runtime.size + 2 ≤ slotLimit)
    (n : Word) (s : σ) : execute (.call n) m s = ⟨.ok none, m.enter n, s⟩ := by
  have hroom : m.HasRoom 2 := h
  exact execute_of_done (by rw [model_act, act, call, if_pos hroom])

theorem room_of_call {σ : Type} [Source σ] {m m' : Machine} {n : Word} {s t : σ}
    {o : Option Word} (h : execute (.call n) m s = ⟨.ok o, m', t⟩) :
    m.runtime.size + 2 ≤ slotLimit := by
  by_cases hroom : m.HasRoom 2
  · exact hroom
  · have hfail : Model.act (.call n) m = m.overflow := by rw [model_act, act, call, if_neg hroom]
    rw [overflow] at hfail
    simp [execute_of_fail hfail] at h

section Enter

variable {m : Machine} (h : m.runtime.size + 2 ≤ slotLimit) (n : Word)

include h in
theorem enter_reference : (m.enter n).reference.toInt = m.runtime.size + 2 := by
  have hlt : m.runtime.size + 2 < 2 ^ 63 := by
    unfold slotLimit at h
    omega
  exact Int64.toInt_ofNat_of_lt hlt

theorem enter_runtime :
    (m.enter n).runtime = m.runtime ++ #[m.counter.addClamp 2, m.reference] := by
  apply Array.ext'
  simp [enter]

theorem enter_size : (m.enter n).runtime.size = m.runtime.size + 2 := by
  simp [enter]

theorem enter_below {a : Word} (ha : a.toInt ≤ m.runtime.size) :
    (m.enter n).slot? a = m.slot? a := by
  refine slot?_congr fun hpos => ?_
  rw [enter_runtime, Array.getElem?_append_left (by omega)]

theorem enter_slot_return {a : Word} (ha : a.toInt = m.runtime.size + 1) :
    (m.enter n).slot? a = some (m.counter.addClamp 2) := by
  have hidx : a.toInt.toNat - 1 = m.runtime.size := by omega
  rw [slot?_of_pos (by omega), hidx, enter_runtime, Array.getElem?_append_right (by omega)]
  simp

theorem enter_slot_saved {a : Word} (ha : a.toInt = m.runtime.size + 2) :
    (m.enter n).slot? a = some m.reference := by
  have hidx : a.toInt.toNat - 1 = m.runtime.size + 1 := by omega
  rw [slot?_of_pos (by omega), hidx, enter_runtime, Array.getElem?_append_right (by omega)]
  simp

end Enter

theorem execute_ret {σ : Type} [Source σ] {m : Machine} {target saved k : Word} (s : σ)
    (hreturn : m.slot? (m.reference.subClamp 1) = some target)
    (hsaved : m.slot? m.reference = some saved)
    (hk : 0 ≤ k.toInt) (hkeep : k.toInt ≤ m.reference.toInt - 2) :
    ∃ n, execute (.ret k) m s = ⟨.ok none, n, s⟩ ∧ n.counter = target.jumpBias.advance ∧
      n.reference = saved ∧ (n.runtime.size : Int) = m.reference.toInt - 2 - k.toInt ∧
      ∀ a : Word, a.toInt ≤ m.reference.toInt - 2 - k.toInt → n.slot? a = m.slot? a := by
  have hle := (slot?_isSome.1 (by rw [hsaved]; rfl)).2
  have hmax := m.reference.toInt_le
  have hframe : (m.reference.subClamp 2).toInt = m.reference.toInt - 2 :=
    Word.toInt_subClamp (by simp; omega) (by simp; omega)
  have hcut : ((m.reference.subClamp 2).subClamp k).toInt = m.reference.toInt - 2 - k.toInt := by
    rw [Word.toInt_subClamp (by simp; omega) (by omega), hframe]
  have hpos : ¬ (m.reference.subClamp 2).subClamp k < 0 := by
    rw [Int64.lt_iff_toInt_lt, hcut]
    simp
    omega
  refine ⟨_, execute_of_done (by
    simp only [model_act, act, ret, hreturn, hsaved, if_neg hpos]
    rfl), rfl, rfl, ?_, ?_⟩
  · simp [← Int64.toNat_toInt, hcut]
    omega
  · intro a ha
    exact slot?_shrink rfl (by rw [← Int64.toNat_toInt, hcut]; omega)

end Machine

/-- What the instructions `code` do, one after the other, between `m` with input
`s` and `n` with input `t` while the frame at `r` is the innermost open one and
those at `outer` are open around it. The addresses that words are put at are in
`written`. -/
inductive Body {σ : Type} [Source σ] : (r : Word) → (outer : List Word) →
    (code : List Instruction) → (m : Machine) → (s : σ) → (written : List Word) →
    (n : Machine) → (t : σ) → Prop where
  | nil (r : Word) (outer : List Word) (m : Machine) (s : σ) : Body r outer [] m s [] m s
  | plain {r : Word} {outer : List Word} {i : Instruction} {code : List Instruction}
      {m m₁ m₂ : Machine} {s s₁ s₂ : σ} {o : Option Word} {written : List Word}
      (hi : i.isPlain = true) (hx : execute i m s = ⟨.ok o, m₁, s₁⟩)
      (hw : ∀ q ∈ r :: outer, m.target? i ≠ some q ∧ m.target? i ≠ some (q.subClamp 1))
      (rest : Body r outer code m₁ s₁ written m₂ s₂) :
      Body r outer (i :: code) m s ((m.target? i).toList ++ written) m₂ s₂
  | block {r : Word} {outer : List Word} {n k : Word} {inner code : List Instruction}
      {m m₁ m₂ m₃ m₄ : Machine} {s s₁ s₂ s₃ s₄ : σ} {o₁ o₂ : Option Word}
      {written₁ written₂ : List Word}
      (hcall : execute (.call n) m s = ⟨.ok o₁, m₁, s₁⟩)
      (body : Body m₁.reference (r :: outer) inner m₁ s₁ written₁ m₂ s₂)
      (hret : execute (.ret k) m₂ s₂ = ⟨.ok o₂, m₃, s₃⟩)
      (hk : 0 ≤ k.toInt ∧ k.toInt ≤ m.runtime.size - r.toInt)
      (rest : Body r outer code m₃ s₃ written₂ m₄ s₄) :
      Body r outer (.call n :: inner ++ .ret k :: code) m s (written₁ ++ written₂) m₄ s₄

structure Intact (r : Word) (written : List Word) (m n : Machine) : Prop where
  reference : n.reference = r
  size : r.toInt ≤ n.runtime.size
  slot : ∀ a : Word, a.toInt ≤ r.toInt → a ∉ written → n.slot? a = m.slot? a

theorem Body.spares {σ : Type} [Source σ] {r : Word} {outer : List Word}
    {code : List Instruction} {m n : Machine} {s t : σ} {written : List Word}
    (h : Body r outer code m s written n t) :
    ∀ q ∈ r :: outer, q ∉ written ∧ q.subClamp 1 ∉ written := by
  induction h with
  | nil r outer m s => simp
  | plain hi hx hw rest ih =>
    intro q hq
    obtain ⟨h1, h2⟩ := hw q hq
    simp only [List.mem_append, Option.mem_toList, not_or]
    exact ⟨⟨h1, (ih q hq).1⟩, h2, (ih q hq).2⟩
  | block hcall body hret hk rest ihbody ihrest =>
    intro q hq
    have hb := ihbody q (List.mem_cons_of_mem _ hq)
    have hr := ihrest q hq
    simp only [List.mem_append, not_or]
    exact ⟨⟨hb.1, hr.1⟩, hb.2, hr.2⟩

theorem Intact.close {σ : Type} [Source σ] {m m₂ : Machine} {n k : Word}
    {written : List Word} (hroom : m.runtime.size + 2 ≤ slotLimit)
    (h : Intact (m.enter n).reference written (m.enter n) m₂)
    (hspare : (m.enter n).reference ∉ written ∧ (m.enter n).reference.subClamp 1 ∉ written)
    (hk : 0 ≤ k.toInt) (hkeep : k.toInt ≤ m.runtime.size) (s : σ) :
    ∃ m₃, execute (.ret k) m₂ s = ⟨.ok none, m₃, s⟩ ∧
      m₃.counter = (m.counter.addClamp 2).jumpBias.advance ∧ m₃.reference = m.reference ∧
      (m₃.runtime.size : Int) = m.runtime.size - k.toInt ∧
      ∀ a : Word, a.toInt ≤ m.runtime.size - k.toInt → a ∉ written → m₃.slot? a = m.slot? a := by
  have href := Machine.enter_reference hroom n
  have hmax := (m.enter n).reference.toInt_le
  have hbelow : ((m.enter n).reference.subClamp 1).toInt = m.runtime.size + 1 := by
    rw [Word.toInt_subClamp (by simp; omega) (by simp; omega), href]
    simp
    omega
  have hreturn : m₂.slot? (m₂.reference.subClamp 1) = some (m.counter.addClamp 2) := by
    rw [h.reference, h.slot _ (by omega) hspare.2, Machine.enter_slot_return n hbelow]
  have hsaved : m₂.slot? m₂.reference = some m.reference := by
    rw [h.reference, h.slot _ (by omega) hspare.1, Machine.enter_slot_saved n href]
  obtain ⟨m₃, hx, hcounter, hsave, hsize, hslot⟩ := Machine.execute_ret s hreturn hsaved hk
    (by rw [h.reference, href]; omega)
  rw [h.reference, href] at hsize hslot
  refine ⟨m₃, hx, hcounter, hsave, by omega, fun a ha hw => ?_⟩
  rw [hslot a (by omega), h.slot a (by omega) hw, Machine.enter_below n (by omega)]

theorem Body.intact {σ : Type} [Source σ] {r : Word} {outer : List Word}
    {code : List Instruction} {m n : Machine} {s t : σ} {written : List Word}
    (h : Body r outer code m s written n t) (href : m.reference = r) (hpos : 0 ≤ r.toInt)
    (hsize : r.toInt ≤ m.runtime.size) : Intact r written m n := by
  induction h with
  | nil r outer m s => exact ⟨href, hsize, fun _ _ _ => rfl⟩
  | @plain r outer i code m m₁ m₂ s s₁ s₂ o written hi hx hw rest ih =>
    have hkeep := Machine.execute_keeps hi hx
    have hsize₁ := hkeep.size
    have hin := ih (hkeep.reference.trans href) hpos (by omega)
    refine ⟨hin.reference, hin.size, fun a ha hnot => ?_⟩
    simp only [List.mem_append, Option.mem_toList, not_or] at hnot
    rw [hin.slot a ha hnot.2, hkeep.slot a (by omega) hnot.1]
  | @block r outer n k inner code m m₁ m₂ m₃ m₄ s s₁ s₂ s₃ s₄ o₁ o₂ written₁ written₂ hcall body
      hret hk rest ihbody ihrest =>
    have hroom := Machine.room_of_call hcall
    rw [Machine.execute_call hroom, Reply.mk.injEq] at hcall
    obtain ⟨-, rfl, -⟩ := hcall
    have href₁ := Machine.enter_reference hroom n
    have hinner := ihbody rfl (by omega) (by rw [Machine.enter_size]; omega)
    obtain ⟨m', hx, -, hsaved, hsize', hslot⟩ := hinner.close hroom
      (body.spares _ List.mem_cons_self) hk.1 (by omega) s₂
    rw [hx, Reply.mk.injEq] at hret
    obtain ⟨-, rfl, -⟩ := hret
    have hin := ihrest (hsaved.trans href) hpos (by omega)
    refine ⟨hin.reference, hin.size, fun a ha hnot => ?_⟩
    simp only [List.mem_append, not_or] at hnot
    rw [hin.slot a ha hnot.2, hslot a (by omega) hnot.1]

/-- A call with room for its frame succeeds, and so does the return after any
body in that frame. It leaves the machine of the call one instruction further,
without the parameters given up and with what the body has written. -/
theorem return_closes_its_call {σ : Type} [Source σ] (m : Machine) (n : Word) (s : σ)
    (hcounter : m.counter.toInt ≤ Int64.maxValue.toInt - 2)
    (hroom : m.runtime.size + 2 ≤ slotLimit) :
    execute (.call n) m s = ⟨.ok none, m.enter n, s⟩ ∧
    ∀ code written m₂ t, Body (m.enter n).reference [] code (m.enter n) s written m₂ t →
    ∀ k : Word, 0 ≤ k.toInt → k.toInt ≤ m.runtime.size →
      ∃ m₃, execute (.ret k) m₂ t = ⟨.ok none, m₃, t⟩ ∧
        m₃.counter.toInt = m.counter.toInt + 1 ∧ m₃.reference = m.reference ∧
        (m₃.runtime.size : Int) = m.runtime.size - k.toInt ∧
        ∀ a : Word, a.toInt ≤ m.runtime.size - k.toInt → a ∉ written →
          m₃.slot? a = m.slot? a := by
  refine ⟨Machine.execute_call hroom n s, ?_⟩
  intro code written m₂ t hbody k hk hkeep
  have href := Machine.enter_reference hroom n
  have hin := hbody.intact rfl (by omega) (by rw [Machine.enter_size]; omega)
  obtain ⟨m₃, hx, hc, hrest⟩ := hin.close hroom (hbody.spares _ List.mem_cons_self) hk hkeep t
  exact ⟨m₃, hx, by rw [hc, Word.toInt_returned hcounter], hrest⟩

def caller : Machine := { counter := 5, runtime := #[10, 20] }

theorem caller_resumed : ∃ code written m₂ m₃,
    Body (caller.enter 1).reference [] code (caller.enter 1) [(6 : Word)] written m₂ [] ∧
    code.length = 6 ∧ execute (.ret 1) m₂ ([] : List Word) = ⟨.ok none, m₃, []⟩ ∧
    m₃.counter.toInt = 6 ∧ m₃.reference = 0 ∧ m₃.runtime.size = 1 ∧ m₃.slot? 1 = some 10 := by
  -- A local variable, a parameter pushed for a second call, and a read into that parameter.
  obtain ⟨code, written, m₂, hbody, hlen, hwritten⟩ : ∃ code written m₂,
      Body (caller.enter 1).reference [] code (caller.enter 1) [(6 : Word)] written m₂ [] ∧
      code.length = 6 ∧ 1 ∉ written :=
    ⟨_, _, _, .plain (i := .init 1) rfl rfl (List.forall_mem_singleton.2 (by decide)) <|
      .plain (i := .lit 3) rfl rfl (List.forall_mem_singleton.2 (by decide)) <|
      .plain (i := .push) rfl rfl (List.forall_mem_singleton.2 (by decide)) <|
      .block (n := 9) (k := 1) rfl
        (.plain (i := .direct .read ⟨.localBase, -2⟩) rfl rfl
          (List.forall_mem_cons.2 ⟨by decide, List.forall_mem_singleton.2 (by decide)⟩)
          (.nil _ _ _ _))
        rfl (by decide) (.nil _ _ _ _), rfl, by decide⟩
  obtain ⟨m₃, hx, hc, href, hsize, hslot⟩ :=
    (return_closes_its_call caller 1 [(6 : Word)] (by decide) (by decide)).2 code written m₂ []
      hbody 1 (by decide) (by decide)
  refine ⟨code, written, m₂, m₃, hbody, hlen, hx, hc, href, ?_, ?_⟩
  · have hone : (caller.runtime.size : Int) - (1 : Word).toInt = 1 := by decide
    omega
  · rw [hslot 1 (by decide) hwritten]
    decide

end AM1
end AbstractMachines
