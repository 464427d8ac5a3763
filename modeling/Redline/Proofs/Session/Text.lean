import Redline.Session.Lines

/-! # Lines of a text

Bytes that encode a text are cut into lines that encode texts: the bytes of the line feed and of the
carriage return are no part of the encoding of any other character (`utf8EncodeChar_of_mem`).  So
the lines of a text are readable, and the only fault that one of them can have is a backspace that
cuts a character in two (`fault_of_text`). -/

namespace Redline.Session

/-- The bytes of a text. -/
def encode (cs : List Char) : Bytes := cs.flatMap String.utf8EncodeChar

theorem toList_toUTF8 (s : String) : s.toUTF8.data.toList = encode s.toList := by
  have h : s.toUTF8 = s.toList.utf8Encode := by simp
  rw [h, List.utf8Encode, List.data_toByteArray]
  rfl

/-! ### Bytes of a character -/

theorem utf8EncodeChar_of_lt {c : Char} (h : c.toNat < 128) :
    String.utf8EncodeChar c = [UInt8.ofNat c.toNat] := by
  unfold String.utf8EncodeChar
  exact if_pos (by change c.toNat ≤ 127; omega)

theorem le_of_mem_utf8EncodeChar {c : Char} (h : 128 ≤ c.toNat) :
    ∀ b ∈ String.utf8EncodeChar c, 128 ≤ b.toNat := by
  have hascii : ¬ c.val.toNat ≤ 127 := by change ¬ c.toNat ≤ 127; omega
  unfold String.utf8EncodeChar
  simp only [if_neg hascii]
  intro b hb
  split at hb
  · simp only [List.mem_cons, List.not_mem_nil, or_false] at hb
    rcases hb with rfl | rfl <;> simp only [UInt8.toNat_ofNat'] <;> omega
  · split at hb
    · simp only [List.mem_cons, List.not_mem_nil, or_false] at hb
      rcases hb with rfl | rfl | rfl <;> simp only [UInt8.toNat_ofNat'] <;> omega
    · simp only [List.mem_cons, List.not_mem_nil, or_false] at hb
      rcases hb with rfl | rfl | rfl | rfl <;> simp only [UInt8.toNat_ofNat'] <;> omega

/-- An ASCII byte is a whole character. -/
theorem utf8EncodeChar_of_mem {c : Char} {b : UInt8} (hb : b ∈ String.utf8EncodeChar c)
    (h : b.toNat < 128) : String.utf8EncodeChar c = [b] := by
  rcases Nat.lt_or_ge c.toNat 128 with hc | hc
  · have hc := utf8EncodeChar_of_lt hc
    rw [hc] at hb ⊢
    rw [List.mem_singleton.1 hb]
  · have := le_of_mem_utf8EncodeChar hc b hb
    omega

/-! ### Cutting -/

theorem cut_append {l : Bytes} (h : ∀ b ∈ l, b ≠ 10) (bs : Bytes) :
    cut (l ++ bs) =
      match (cut bs).1 with
      | [] => ([], l ++ (cut bs).2)
      | line :: lines => ((l ++ line) :: lines, (cut bs).2) := by
  induction l with
  | nil => rcases hbs : cut bs with ⟨_ | ⟨line, lines⟩, rest⟩ <;> simp [hbs]
  | cons b l ih =>
      obtain ⟨hb, hl⟩ := List.forall_mem_cons.1 h
      rw [List.cons_append, cut, ih hl]
      rcases cut bs with ⟨_ | ⟨line, lines⟩, rest⟩ <;> simp [hb]

/-- The lines of a text are texts, and so is what is behind them. -/
theorem exists_cut (cs : List Char) :
    (∀ line ∈ (cut (encode cs)).1, ∃ ds, line = encode ds) ∧
      ∃ ds, (cut (encode cs)).2 = encode ds := by
  induction cs with
  | nil => exact ⟨nofun, [], rfl⟩
  | cons c cs ih =>
      obtain ⟨hlines, ds, hrest⟩ := ih
      rw [encode, List.flatMap_cons]
      change (∀ line ∈ (cut (_ ++ encode cs)).1, _) ∧ ∃ ds, (cut (_ ++ encode cs)).2 = _
      by_cases hc : 10 ∈ String.utf8EncodeChar c
      · rw [utf8EncodeChar_of_mem hc (by decide), List.singleton_append, cut]
        exact ⟨List.forall_mem_cons.2 ⟨⟨[], rfl⟩, hlines⟩, ds, hrest⟩
      · rw [cut_append fun b hb h => hc (h ▸ hb)]
        rcases hcut : (cut (encode cs)).1 with _ | ⟨line, lines⟩
        · exact ⟨nofun, c :: ds, by rw [hrest]; rfl⟩
        · rw [hcut] at hlines
          obtain ⟨⟨es, hline⟩, hlines⟩ := List.forall_mem_cons.1 hlines
          refine ⟨List.forall_mem_cons.2 ⟨⟨c :: es, ?_⟩, hlines⟩, ds, hrest⟩
          rw [hline]
          rfl

theorem exists_dropReturn (cs : List Char) : ∃ ds, dropReturn (encode cs) = encode ds := by
  rcases List.eq_nil_or_concat cs with rfl | ⟨init, c, rfl⟩
  · exact ⟨[], rfl⟩
  · have hencode : encode (init.concat c) = encode init ++ String.utf8EncodeChar c := by
      simp [encode]
    unfold dropReturn
    split
    case isFalse => exact ⟨_, rfl⟩
    case isTrue hlast =>
      obtain ⟨b, hb⟩ := Option.isSome_iff_exists.1 <|
        List.getLast?_isSome.2 (String.utf8EncodeChar_ne_nil (c := c))
      rw [hencode, List.getLast?_append, hb, Option.some_or] at hlast
      obtain rfl : b = 13 := Option.some.inj hlast
      have hreturn := utf8EncodeChar_of_mem (List.mem_of_getLast? hb) (by decide)
      refine ⟨init, ?_⟩
      rw [hencode, hreturn, List.dropLast_concat]

/-! ### Reading -/

theorem readLine_encode (cs : List Char) :
    readLine (encode cs) =
      match Text.applyBackspaces cs with
      | none => .error .brokenCharacter
      | some ds => .ok (.ofList ds) := by
  have hdecode : String.fromUTF8? ⟨(encode cs).toArray⟩ = some (String.ofList cs) := by
    have hbytes : (⟨(encode cs).toArray⟩ : ByteArray) = cs.utf8Encode := by
      apply ByteArray.ext
      rw [List.utf8Encode, List.data_toByteArray]
      rfl
    rw [hbytes, String.fromUTF8?, dif_pos ⟨cs, rfl⟩]
    rfl
  cases hback : Text.applyBackspaces cs with
  | none => simp only [readLine, hdecode, String.toList_ofList, hback]
  | some ds => simp only [readLine, hdecode, String.toList_ofList, hback]

/-- The only fault that a line of a text can have. -/
theorem fault_of_text {text : String} {fault : LineFault}
    (h : .error fault ∈ linesOf text.toUTF8.data.toList) : fault = .brokenCharacter := by
  have hread : ∀ cs, readLine (encode cs) = .error fault → fault = .brokenCharacter := by
    intro cs hcs
    rw [readLine_encode] at hcs
    cases hback : Text.applyBackspaces cs with
    | none =>
        rw [hback] at hcs
        cases hcs
        rfl
    | some ds =>
        rw [hback] at hcs
        cases hcs
  rw [toList_toUTF8] at h
  obtain ⟨hlines, ds, hrest⟩ := exists_cut text.toList
  unfold linesOf takeLines lastLine at h
  rcases List.mem_append.1 h with h | h
  · obtain ⟨line, hline, hfault⟩ := List.mem_map.1 h
    obtain ⟨es, rfl⟩ := hlines line hline
    obtain ⟨fs, hfs⟩ := exists_dropReturn es
    rw [hfs] at hfault
    exact hread fs hfault
  · split at h
    · cases h
    · rw [hrest, List.mem_singleton] at h
      exact hread ds h.symm

end Redline.Session
