import Monkey.Repl

/-!
# Lines of texts

Texts that are written as lines, each with a newline at its end, are read as these lines
(`Text.lines_ofLines`), but for a carriage return that a line ends in. In UTF-8 no part of
another character looks like a newline or a carriage return.

An input whose lines all have their ends may go on with anything: this is cut into lines as it
is on its own (`Text.lines_append`).
-/

namespace Monkey.Text

/-! ## Bytes of texts -/

/-- The bytes of a text in UTF-8. -/
def encode (text : String) : List UInt8 :=
  text.toUTF8.data.toList

/-- A text is decoded from its bytes. -/
theorem decode?_encode (text : String) : decode? (encode text) = some text := by
  rw [decode?, encode, Array.toArray_toList, String.fromUTF8?]
  exact dif_pos text.isValidUTF8

/-- A text is encoded character by character. -/
theorem encode_eq_flatMap (text : String) :
    encode text = text.toList.flatMap String.utf8EncodeChar := by
  rw [encode, String.toUTF8_eq_toByteArray, ← String.utf8Encode_toList, List.utf8Encode,
    List.toList_data_toByteArray]

/-- A character of ASCII is one byte. -/
theorem utf8EncodeChar_of_lt {c : Char} (h : c.toNat < 128) :
    String.utf8EncodeChar c = [UInt8.ofNat c.toNat] :=
  if_pos (Nat.le_of_lt_succ h)

/-- The bytes of a character that is none of ASCII are none either. -/
theorem le_toNat_of_mem_utf8EncodeChar {c : Char} (h : 128 ≤ c.toNat) {b : UInt8}
    (hb : b ∈ String.utf8EncodeChar c) : 128 ≤ b.toNat := by
  have hascii : ¬c.val.toNat ≤ 127 := Nat.not_le_of_lt h
  rw [String.utf8EncodeChar, if_neg hascii] at hb
  split at hb
  · simp only [List.mem_cons, List.not_mem_nil, or_false] at hb
    rcases hb with rfl | rfl <;> rw [UInt8.toNat_ofNat'] <;> omega
  · split at hb
    · simp only [List.mem_cons, List.not_mem_nil, or_false] at hb
      rcases hb with rfl | rfl | rfl <;> rw [UInt8.toNat_ofNat'] <;> omega
    · simp only [List.mem_cons, List.not_mem_nil, or_false] at hb
      rcases hb with rfl | rfl | rfl | rfl <;> rw [UInt8.toNat_ofNat'] <;> omega

/-- A byte of ASCII is a character of its own. -/
theorem toNat_of_mem_utf8EncodeChar {c : Char} {b : UInt8} (hb : b ∈ String.utf8EncodeChar c)
    (hlt : b.toNat < 128) : c.toNat = b.toNat ∧ String.utf8EncodeChar c = [b] := by
  have hc : c.toNat < 128 := by
    refine Nat.lt_of_not_le fun hle => ?_
    exact Nat.not_lt_of_le (le_toNat_of_mem_utf8EncodeChar hle hb) hlt
  rw [utf8EncodeChar_of_lt hc] at hb ⊢
  obtain rfl := List.mem_singleton.1 hb
  rw [UInt8.toNat_ofNat']
  exact ⟨(Nat.mod_eq_of_lt (by omega)).symm, rfl⟩

/-- A text without a newline has no byte that looks like one. -/
theorem newline_not_mem_encode {text : String} (h : '\n' ∉ text.toList) :
    newline ∉ encode text := by
  rw [encode_eq_flatMap, List.mem_flatMap]
  rintro ⟨c, hc, hb⟩
  have hnat := (toNat_of_mem_utf8EncodeChar hb (by decide)).1
  have heq : c = '\n' := Char.toNat_inj.1 hnat
  exact h (heq ▸ hc)

/-- Of a text a carriage return is dropped at the end, if it has one. -/
theorem dropCarriageReturn_encode (text : String) :
    ∃ line, dropCarriageReturn (encode text) = encode line ∧
      (line = text ∨ line.toList ++ ['\r'] = text.toList) := by
  rw [dropCarriageReturn]
  split
  · next hlast =>
    rcases List.eq_nil_or_concat text.toList with hnil | ⟨cs, c, hcs⟩
    · rw [encode_eq_flatMap, hnil] at hlast
      cases hlast
    · rw [List.concat_eq_append] at hcs
      have hencode : encode text = cs.flatMap String.utf8EncodeChar ++ String.utf8EncodeChar c := by
        rw [encode_eq_flatMap, hcs, List.flatMap_append, List.flatMap_singleton]
      have hne : String.utf8EncodeChar c ≠ [] := String.utf8EncodeChar_ne_nil
      rw [hencode, List.getLast?_append, List.getLast?_eq_some_getLast hne, Option.some_or] at hlast
      have hmem : carriageReturn ∈ String.utf8EncodeChar c :=
        Option.some.inj hlast ▸ List.getLast_mem hne
      obtain ⟨hnat, hsingle⟩ := toNat_of_mem_utf8EncodeChar hmem (by decide)
      obtain rfl : c = '\r' := Char.toNat_inj.1 hnat
      refine ⟨String.ofList cs, ?_, .inr (by rw [String.toList_ofList, hcs])⟩
      rw [hencode, hsingle, List.dropLast_concat, encode_eq_flatMap, String.toList_ofList]
  · exact ⟨text, rfl, .inl rfl⟩

/-! ## Lines -/

/-- The bytes of lines, each with its end. -/
def ofLines (texts : List String) : List UInt8 :=
  texts.flatMap fun text => encode text ++ [newline]

/-- The first line goes up to the first newline. -/
theorem lines_append_newline {line : List UInt8} (h : newline ∉ line) (rest : List UInt8) :
    lines (line ++ newline :: rest) = dropCarriageReturn line :: lines rest := by
  have hline : ∀ b ∈ line, decide (b ≠ newline) = true := fun b hb =>
    decide_eq_true fun heq => h (heq ▸ hb)
  have htake : (line ++ newline :: rest).takeWhile (· ≠ newline) = line := by
    rw [List.takeWhile_append_of_pos hline]
    simp
  have hdrop : (line ++ newline :: rest).dropWhile (· ≠ newline) = newline :: rest := by
    rw [List.dropWhile_append_of_pos hline]
    simp
  obtain ⟨b, bytes, hbytes⟩ := List.exists_cons_of_ne_nil (l := line ++ newline :: rest) (by simp)
  rw [hbytes] at htake hdrop ⊢
  rw [lines]
  simp only [htake, hdrop]
  rfl

/-- Lines are read as they were written, without their ends. -/
theorem lines_ofLines {texts : List String} (h : ∀ text ∈ texts, '\n' ∉ text.toList) :
    lines (ofLines texts) = texts.map fun text => dropCarriageReturn (encode text) := by
  induction texts with
  | nil => rw [ofLines, List.flatMap_nil, lines, List.map_nil]
  | cons text texts ih =>
    obtain ⟨htext, htexts⟩ := List.forall_mem_cons.1 h
    have hcons : ofLines (text :: texts) = encode text ++ newline :: ofLines texts := by
      simp [ofLines]
    rw [hcons, lines_append_newline (newline_not_mem_encode htext), ih htexts, List.map_cons]

/-! ## Inputs that go on -/

/-- The last line has an end, if there is any line. -/
def Ended (bytes : List UInt8) : Prop :=
  ∀ b ∈ bytes.getLast?, b = newline

/-- What is left of an input whose lines have their ends is such an input. -/
theorem Ended.of_append {bytes others : List UInt8} (h : Ended (bytes ++ others)) :
    Ended others := by
  intro b hb
  refine h b ?_
  rw [List.getLast?_append, hb, Option.some_or]
  rfl

/-- Where all lines have their ends, what goes on is lines of its own. -/
theorem lines_append {bytes : List UInt8} (h : Ended bytes) (others : List UInt8) :
    lines (bytes ++ others) = lines bytes ++ lines others := by
  induction hn : bytes.length using Nat.strongRecOn generalizing bytes with
  | _ n ih =>
    rcases List.eq_nil_or_concat bytes with rfl | ⟨init, b, hbytes⟩
    · rw [List.nil_append, lines, List.nil_append]
    · -- There is a newline, at the latest in the end; the first line goes up to the first one.
      rw [List.concat_eq_append] at hbytes
      have hlast : b = newline := h b (by simp [hbytes])
      have hmem : newline ∈ bytes := by simp [hbytes, hlast]
      obtain ⟨line, rest, rfl, hline⟩ := List.eq_append_cons_of_mem hmem
      have hend : Ended ([newline] ++ rest) := h.of_append
      have hlength : rest.length < n := by
        rw [← hn, List.length_append, List.length_cons]
        omega
      rw [List.append_assoc, List.cons_append, lines_append_newline hline,
        lines_append_newline hline, ih _ hlength hend.of_append rfl, List.cons_append]

end Monkey.Text
