import AbstractMachines.Console

/-!
# Lines of encoded text

Splitting the bytes of a text at line feeds and decoding each piece gives the lines
of the text: no byte of another character is a line feed, so no character is torn
apart.
-/

namespace AbstractMachines

namespace Text

theorem dropWhileEnd_cons (p : Char → Bool) (c : Char) (cs : List Char) :
    dropWhileEnd p (c :: cs) =
      if dropWhileEnd p cs = [] then (if p c then [] else [c]) else c :: dropWhileEnd p cs := by
  simp only [dropWhileEnd, List.reverse_cons, List.dropWhile_append, List.isEmpty_iff,
    List.reverse_eq_nil_iff]
  split
  · cases hc : p c <;> simp [List.dropWhile, hc]
  · simp

theorem dropWhile_dropWhile {p q : Char → Bool} (h : ∀ c, q c = true → p c = true)
    (cs : List Char) : (cs.dropWhile q).dropWhile p = cs.dropWhile p := by
  induction cs with
  | nil => rfl
  | cons c cs ih =>
    by_cases hc : q c = true
    · rw [List.dropWhile_cons_of_pos hc, ih, List.dropWhile_cons_of_pos (h c hc)]
    · rw [List.dropWhile_cons_of_neg hc]

theorem trimEnd_dropWhileEnd {q : Char → Bool} (h : ∀ c, q c = true → isBlank c = true)
    (cs : List Char) : trimEnd (dropWhileEnd q cs) = trimEnd cs := by
  simp only [trimEnd, dropWhileEnd, List.reverse_reverse, dropWhile_dropWhile h]

theorem trim_dropWhileEnd {q : Char → Bool} (h : ∀ c, q c = true → isBlank c = true)
    (cs : List Char) : trim (dropWhileEnd q cs) = trim cs := by
  induction cs with
  | nil => rfl
  | cons c cs ih =>
    by_cases hc : isBlank c = true
    · have hcons (l : List Char) : trim (c :: l) = trim l := by
        rw [trim, trim, List.dropWhile_cons_of_pos hc]
      rw [hcons, ← ih, dropWhileEnd_cons]
      split
      · next hd =>
        rw [hd]
        split
        · rfl
        · exact hcons []
      · exact hcons _
    · have hcons (l : List Char) : trim (c :: l) = trimEnd (c :: l) := by
        rw [trim, List.dropWhile_cons_of_neg hc]
      have hq : q c = false := by
        cases hq : q c with
        | false => rfl
        | true => exact absurd (h c hq) hc
      have hfront : dropWhileEnd q (c :: cs) = c :: dropWhileEnd q cs := by
        rw [dropWhileEnd_cons, hq]
        split
        · next hd => rw [hd]; rfl
        · rfl
      rw [hcons, ← trimEnd_dropWhileEnd h (c :: cs), hfront, hcons]

theorem trim_dropReturns (cs : List Char) : trim (dropWhileEnd (· == '\r') cs) = trim cs := by
  apply trim_dropWhileEnd
  intro c hc
  rw [eq_of_beq hc]
  rfl

def encode (cs : List Char) : List UInt8 := cs.flatMap String.utf8EncodeChar

theorem toUTF8_data (s : String) : s.toUTF8.data.toList = encode s.toList := by
  have h : s.toUTF8 = (encode s.toList).toByteArray := by
    conv => lhs; rw [← String.ofList_toList (s := s)]
    rfl
  rw [h, List.toList_data_toByteArray]

theorem linefeed_not_mem {c : Char} (h : c ≠ '\n') : (10 : UInt8) ∉ String.utf8EncodeChar c := by
  have hc : c.val.toNat ≠ 10 := fun hc => h (Char.ext (UInt32.toNat_inj.1 hc))
  have hbyte (n : Nat) : (10 : UInt8) = UInt8.ofNat n ↔ n % 256 = 10 := by
    rw [← UInt8.toNat_inj, UInt8.toNat_ofNat]
    exact eq_comm
  rw [String.utf8EncodeChar.eq_1]
  split
  · simp only [List.mem_singleton, hbyte]
    omega
  split
  · simp only [List.mem_cons, List.not_mem_nil, or_false, hbyte]
    omega
  split <;>
  · simp only [List.mem_cons, List.not_mem_nil, or_false, hbyte]
    omega

end Text

namespace Line

theorem split_append {front : List UInt8} (hne : front ≠ []) (h : 10 ∉ front) (rest : List UInt8) :
    split (front ++ rest) =
      match split rest with
      | [] => [front]
      | l :: ls => (front ++ l) :: ls := by
  induction front with
  | nil => exact absurd rfl hne
  | cons b front ih =>
    simp only [List.mem_cons, not_or] at h
    obtain ⟨hb, hfront⟩ := h
    rw [List.cons_append, split, if_neg (Ne.symm hb)]
    cases front with
    | nil => rfl
    | cons c front =>
      rw [ih (List.cons_ne_nil c front) hfront]
      cases split rest <;> rfl

theorem split_encode_newline {cs : List Char} {ls : List (List Char)}
    (h : split (Text.encode cs) = ls.map Text.encode) :
    split (Text.encode ('\n' :: cs)) = ([] :: ls).map Text.encode :=
  congrArg ([] :: ·) h

theorem split_encode_cons {c : Char} (hc : c ≠ '\n') {cs : List Char} {ls : List (List Char)}
    (h : split (Text.encode cs) = ls.map Text.encode) :
    split (Text.encode (c :: cs)) =
      (match ls with
        | [] => [[c]]
        | l :: ls => (c :: l) :: ls).map Text.encode := by
  have hne : String.utf8EncodeChar c ≠ [] := by
    rw [← List.length_pos_iff, String.length_utf8EncodeChar]
    exact Char.utf8Size_pos c
  have hcons (l : List Char) : Text.encode (c :: l) = String.utf8EncodeChar c ++ Text.encode l := rfl
  rw [hcons, split_append hne (Text.linefeed_not_mem hc), h]
  cases ls with
  | nil => simp [Text.encode]
  | cons l ls => simp [hcons]

theorem decode?_encode (cs : List Char) : decode? (Text.encode cs) = some cs := by
  have h : (Text.encode cs).toByteArray.utf8Decode? = some cs.toArray := List.utf8Decode?_utf8Encode
  simp [decode?, h]

theorem decode?_eq_some_iff {bytes : List UInt8} {cs : List Char} :
    decode? bytes = some cs ↔ bytes = Text.encode cs := by
  constructor
  · intro h
    obtain ⟨chars, hchars, rfl⟩ := Option.map_eq_some_iff.1 h
    have hsome : bytes.toByteArray.utf8Decode?.isSome = true := by rw [hchars]; rfl
    have hget : bytes.toByteArray.utf8Decode?.get hsome = chars := by simp [hchars]
    have hbytes := ByteArray.utf8Encode_get_utf8Decode? (h := hsome)
    rw [hget] at hbytes
    calc bytes = bytes.toByteArray.data.toList := (List.toList_data_toByteArray ..).symm
      _ = chars.toList.utf8Encode.data.toList := by rw [hbytes]
      _ = Text.encode chars.toList := List.toList_data_toByteArray ..
  · rintro rfl
    exact decode?_encode cs

theorem split_encode (cs : List Char) :
    ∃ ls : List (List Char), split (Text.encode cs) = ls.map Text.encode ∧
      ls.map (Text.dropWhileEnd (· == '\r')) = (Text.lines cs).map (Text.dropWhileEnd (· == '\r')) := by
  fun_induction Text.lines cs with
  | case1 => exact ⟨[], rfl, rfl⟩
  | case2 cs ih =>
    obtain ⟨ls, hsplit, hls⟩ := ih
    exact ⟨_, split_encode_newline hsplit, by simp [hls]⟩
  | case3 cs ih =>
    obtain ⟨ls, hsplit, hls⟩ := ih
    exact ⟨_, split_encode_cons (by decide) (split_encode_newline hsplit), by simp [hls, Text.dropWhileEnd]⟩
  | case4 c cs hnl hcr hl ih =>
    obtain ⟨ls, hsplit, hls⟩ := ih
    obtain rfl : ls = [] := by simpa [hl] using hls
    exact ⟨_, split_encode_cons hnl hsplit, rfl⟩
  | case5 c cs hnl hcr l ls' hl ih =>
    obtain ⟨_ | ⟨k, ks⟩, hsplit, hls⟩ := ih
    · simp [hl] at hls
    · simp only [hl, List.map_cons, List.cons.injEq] at hls
      refine ⟨_, split_encode_cons hnl hsplit, ?_⟩
      simp [Text.dropWhileEnd_cons, hls]

theorem all_toUTF8 (s : String) :
    all s.toUTF8.data.toList =
      (Text.lines s.toList).map fun l => text (Text.dropWhileEnd (· == '\r') l) := by
  obtain ⟨ls, hsplit, hls⟩ := split_encode s.toList
  rw [all, Text.toUTF8_data, hsplit, List.map_map]
  calc ls.map (ofBytes ∘ Text.encode)
      = (ls.map (Text.dropWhileEnd (· == '\r'))).map text := by
        simp [ofBytes, decode?_encode]
    _ = ((Text.lines s.toList).map (Text.dropWhileEnd (· == '\r'))).map text := by rw [hls]
    _ = _ := List.map_map

theorem garbled_not_mem_all (s : String) : garbled ∉ all s.toUTF8.data.toList := by
  rw [all_toUTF8]
  simp

end Line
end AbstractMachines
