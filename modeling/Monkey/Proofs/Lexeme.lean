import Monkey.Token.Scan

/-!
# Lexemes

How tokens are written in a source, said by rules instead of by how they are scanned.
The characters of a token are its *lexeme* (`Lexeme`); a source is split into lexemes
with blanks before, between and after them (`Splits`).

* A lexeme is as long as possible. So it depends on what follows: a name on not being
  followed by a character that names go on with, a lone `=` or `!` on not being followed
  by an equals sign.
* What is no word is illegal, either as a run of digits that makes a number out of range
  or as a single character that starts no word (`Word`).

Scanning takes the lexeme of the first token (`next_of_lexeme`, `lexeme_next`), so the
main statement is that every source can be split in exactly one way, namely into the
lexemes of the tokens that are scanned (`splits_iff_eq_ofString`).
-/

namespace Monkey.Token

open Text (isBlank)

/-! ## Words -/

/-- The tokens that are written as signs. -/
def signs : List Token :=
  [assign, plus, minus, bang, asterisk, slash, lt, gt, eq, ne, lparen, rparen, lbrace, rbrace,
    lbracket, rbracket, comma, semicolon, colon]

/-- No character with the property comes next. -/
def Halts (p : Char → Bool) (rest : List Char) : Prop :=
  ∀ c ∈ rest.head?, p c = false

/-- The text is a letter or underscore, then letters, digits and underscores. -/
def IsWord (x : String) : Prop :=
  ∃ c cs, x.toList = c :: cs ∧ isNameStart c = true ∧ ∀ d ∈ cs, isNameRest d = true

/-- The text is a name, which no keyword is. -/
structure IsName (x : String) : Prop where
  isWord : IsWord x
  not_keyword : ∀ t ∈ keywords, t.spelling ≠ x

/-- The characters are decimal digits, at least one. -/
structure IsNumeral (digits : List Char) : Prop where
  ne_nil : digits ≠ []
  isDigit : ∀ d ∈ digits, d.isDigit = true

/-- The characters are how a token of the language is written, where `rest` follows. -/
inductive Word : Token → List Char → List Char → Prop
  | sign {t rest} : t ∈ signs → (t ∈ [assign, bang] → rest.head? ≠ some '=') →
      Word t t.spelling.toList rest
  | keyword {t rest} : t ∈ keywords → Halts isNameRest rest → Word t t.spelling.toList rest
  | name {x rest} : IsName x → Halts isNameRest rest → Word (ident x) x.toList rest
  | number {digits rest} : IsNumeral digits → Nat.ofDigitChars 10 digits 0 ≤ maxInt →
      Halts Char.isDigit rest → Word (int (Nat.ofDigitChars 10 digits 0)) digits rest
  | text {x rest} : '"' ∉ x.toList → Word (str x) ('"' :: x.toList ++ ['"']) rest
  /-- At the end of the source the closing quote may be missing. -/
  | unclosed {x} : '"' ∉ x.toList → Word (str x) ('"' :: x.toList) []

/-- The characters are how a token is written, where `rest` follows. -/
inductive Lexeme : Token → List Char → List Char → Prop
  | word {t l rest} : Word t l rest → Lexeme t l rest
  | outOfRange {digits rest} : IsNumeral digits → maxInt < Nat.ofDigitChars 10 digits 0 →
      Halts Char.isDigit rest → Lexeme (illegal (String.ofList digits)) digits rest
  /-- A character that starts no word. -/
  | stray {c rest} : isBlank c = false → (∀ t l rest, ¬Word t (c :: l) rest) →
      Lexeme (illegal (String.singleton c)) [c] rest

/-- The characters are the lexemes of the tokens, in order, with blanks before, between
    and after them. -/
inductive Splits : List Char → List Token → Prop
  | nil {blanks} : (∀ c ∈ blanks, isBlank c = true) → Splits blanks []
  | cons {blanks l rest t ts} : (∀ c ∈ blanks, isBlank c = true) → Lexeme t l rest →
      Splits rest ts → Splits (blanks ++ l ++ rest) (t :: ts)

/-! ## The classes of characters -/

/-- The first blank beyond the space is far beyond all letters of ASCII. -/
theorem isBlank_le {c : Char} (h : isBlank c = true) : c.toNat ≤ 32 ∨ 133 ≤ c.toNat := by
  obtain ⟨range, hrange, hle, hge⟩ := Text.Ranges.contains_iff.1 h
  simp only [Text.blankRanges, List.mem_cons, List.not_mem_nil, or_false] at hrange
  rcases hrange with rfl | rfl | rfl | rfl | rfl | rfl | rfl | rfl | rfl | rfl <;>
    simp only at hle hge <;> omega

theorem isBlank_of_sign? {c : Char} {t : Token} (h : sign? c = some t) : isBlank c = false := by
  unfold sign? at h
  split at h <;> first | rfl | cases h

/-- What is read as a sign is one. -/
theorem mem_signs_of_sign? {c : Char} {t : Token} (h : sign? c = some t) : t ∈ signs := by
  unfold sign? at h
  split at h <;> cases h <;> decide

/-- A character that is neither blank nor a sign nor a quote. -/
structure Plain (c : Char) : Prop where
  not_blank : isBlank c = false
  sign? : sign? c = none
  ne_quote : c ≠ '"'

/-- No character of a name is a sign. -/
theorem sign?_of_isNameRest {c : Char} (h : isNameRest c = true) : sign? c = none := by
  unfold sign?
  split <;> first | rfl | exact absurd h (by decide)

theorem isNameRest_of_isDigit {c : Char} (h : c.isDigit = true) : isNameRest c = true := by
  simp [isNameRest, h]

theorem isNameRest_of_isNameStart {c : Char} (h : isNameStart c = true) : isNameRest c = true := by
  simp [isNameRest, h]

/-- Names start with a letter of ASCII or an underscore. -/
theorem isNameStart_iff {c : Char} : isNameStart c = true ↔
    (65 ≤ c.toNat ∧ c.toNat ≤ 90 ∨ 97 ≤ c.toNat ∧ c.toNat ≤ 122) ∨ c = '_' := by
  rw [isNameStart, Bool.or_eq_true, beq_iff_eq]
  change (decide ('A'.val ≤ c.val ∧ c.val ≤ 'Z'.val) ||
    decide ('a'.val ≤ c.val) && decide (c.val ≤ 'z'.val)) = true ∨ _ ↔ _
  rw [Bool.or_eq_true, Bool.and_eq_true, decide_eq_true_iff, decide_eq_true_iff,
    decide_eq_true_iff]
  rfl

/-- The characters of names are between the digits and the small letters of ASCII. -/
theorem toNat_of_isNameRest {c : Char} (h : isNameRest c = true) :
    48 ≤ c.toNat ∧ c.toNat ≤ 122 := by
  rw [isNameRest, Bool.or_eq_true, isNameStart_iff, Char.isDigit_iff_toNat] at h
  rcases h with ((h | h) | rfl) | h
  · exact ⟨Nat.le_trans (by decide) h.1, Nat.le_trans h.2 (by decide)⟩
  · exact ⟨Nat.le_trans (by decide) h.1, h.2⟩
  · decide
  · exact ⟨h.1, Nat.le_trans h.2 (by decide)⟩

/-- The characters of names are neither blank nor signs nor quotes. -/
theorem plain_of_isNameRest {c : Char} (h : isNameRest c = true) : Plain c where
  not_blank := by
    have hrange := toNat_of_isNameRest h
    refine Bool.eq_false_iff.2 fun hblank => ?_
    have := isBlank_le hblank
    omega
  sign? := sign?_of_isNameRest h
  ne_quote := by
    rintro rfl
    exact absurd h (by decide)

/-- No name starts with a digit. -/
theorem not_isNameStart_of_isDigit {c : Char} (h : c.isDigit = true) : isNameStart c = false := by
  have hle := (Char.isDigit_iff_toNat.1 h).2
  refine Bool.eq_false_iff.2 fun hstart => ?_
  rw [isNameStart_iff] at hstart
  rcases hstart with (⟨hge, -⟩ | ⟨hge, -⟩) | rfl
  · exact absurd (Nat.le_trans hge hle) (by decide)
  · exact absurd (Nat.le_trans hge hle) (by decide)
  · exact absurd hle (by decide)

/-! ## Runs of characters -/

section

variable {p : Char → Bool} {run rest : List Char}

theorem takeWhile_of_halts (h : Halts p rest) : rest.takeWhile p = [] := by
  cases rest with
  | nil => rfl
  | cons c cs => simp [h c rfl]

theorem dropWhile_of_halts (h : Halts p rest) : rest.dropWhile p = rest := by
  cases rest with
  | nil => rfl
  | cons c cs => simp [h c rfl]

/-- A run of characters with the property ends where none comes next. -/
theorem takeWhile_run (hrun : ∀ c ∈ run, p c = true) (h : Halts p rest) :
    (run ++ rest).takeWhile p = run := by
  rw [List.takeWhile_append_of_pos hrun, takeWhile_of_halts h, List.append_nil]

/-- What follows a run is left when the run is dropped. -/
theorem dropWhile_run (hrun : ∀ c ∈ run, p c = true) (h : Halts p rest) :
    (run ++ rest).dropWhile p = rest := by
  rw [List.dropWhile_append_of_pos hrun, dropWhile_of_halts h]

/-- When a run is dropped, it has stopped. -/
theorem halts_dropWhile (p : Char → Bool) (cs : List Char) : Halts p (cs.dropWhile p) := by
  intro c hc
  have h := List.head?_dropWhile_not p cs
  rw [Option.mem_def.1 hc] at h
  exact h

theorem of_mem_takeWhile {cs : List Char} {c : Char} (h : c ∈ cs.takeWhile p) : p c = true :=
  List.all_eq_true.1 List.all_takeWhile c h

end

/-- Digits are read from the left, each as ten times what is before it and itself. -/
theorem valueOfDigits_eq (digits : List Char) :
    valueOfDigits digits = Nat.ofDigitChars 10 digits 0 :=
  Nat.ofDigitChars_eq_foldl.symm

/-! ## The first token -/

/-- Blanks before a token are passed over. -/
theorem next_blanks {blanks : List Char} (h : ∀ c ∈ blanks, isBlank c = true) (cs : List Char) :
    next (blanks ++ cs) = next cs := by
  induction blanks with
  | nil => rfl
  | cons c blanks ih =>
    obtain ⟨hc, hblanks⟩ := List.forall_mem_cons.1 h
    rw [List.cons_append, next, if_pos hc, ih hblanks]

/-- A sign is read with the equals sign that may be part of it. -/
theorem next_sign {c : Char} {t : Token} (h : sign? c = some t) (cs : List Char) :
    next (c :: cs) = ofSign t cs := by
  rw [next, if_neg (Bool.eq_false_iff.1 (isBlank_of_sign? h)), h]

/-- A text goes up to the next quote, or to the end. -/
theorem next_quote (cs : List Char) : next ('"' :: cs) =
    (str (String.ofList (cs.takeWhile (· ≠ '"'))), (cs.dropWhile (· ≠ '"')).tail) :=
  rfl

/-- A character that is neither blank nor a sign nor a quote starts a word or a number, or is
    illegal. -/
theorem next_plain {c : Char} (h : Plain c) (cs : List Char) : next (c :: cs) =
    if isNameStart c then
      (ofWord (String.ofList (c :: cs.takeWhile isNameRest)), cs.dropWhile isNameRest)
    else if c.isDigit then
      (ofDigits (c :: cs.takeWhile Char.isDigit), cs.dropWhile Char.isDigit)
    else (illegal (String.singleton c), cs) := by
  rw [next, if_neg (Bool.eq_false_iff.1 h.not_blank), h.sign?]
  exact if_neg h.ne_quote

/-- Keywords are read as themselves. -/
theorem ofWord_keyword {t : Token} (h : t ∈ keywords) : ofWord t.spelling = t := by
  simp only [keywords, List.mem_cons, List.not_mem_nil, or_false] at h
  rcases h with rfl | rfl | rfl | rfl | rfl | rfl | rfl <;> decide

/-- Every other word is a name. -/
theorem ofWord_of_ne {word : String} (h : ∀ t ∈ keywords, t.spelling ≠ word) :
    ofWord word = ident word := by
  have hnone : (keywords.find? fun t => t.spelling == word) = none :=
    List.find?_eq_none.2 fun t ht => by simp [h t ht]
  rw [ofWord, hnone, Option.getD_none]

/-- Keywords are written as names are. -/
theorem isWord_keyword {t : Token} (h : t ∈ keywords) : IsWord t.spelling := by
  simp only [keywords, List.mem_cons, List.not_mem_nil, or_false] at h
  rcases h with rfl | rfl | rfl | rfl | rfl | rfl | rfl <;>
    exact ⟨_, _, rfl, rfl, List.all_eq_true.1 rfl⟩

/-- A sign is a single character or made of two. -/
theorem sign?_of_mem_signs {t : Token} (h : t ∈ signs) :
    (∃ c, sign? c = some t ∧ t.spelling.toList = [c]) ∨ t = eq ∨ t = ne := by
  simp only [signs, List.mem_cons, List.not_mem_nil, or_false] at h
  rcases h with rfl | rfl | rfl | rfl | rfl | rfl | rfl | rfl | rfl | rfl | rfl | rfl | rfl | rfl |
    rfl | rfl | rfl | rfl | rfl
  all_goals first | exact .inr (.inl rfl) | exact .inr (.inr rfl) | exact .inl ⟨_, rfl, rfl⟩

/-- A sign that no equals sign follows is read alone. -/
theorem ofSign_of_ne {t : Token} {rest : List Char}
    (h : t ∈ [assign, bang] → rest.head? ≠ some '=') : ofSign t rest = (t, rest) := by
  unfold ofSign
  split
  · exact absurd rfl (h (by decide))
  · exact absurd rfl (h (by decide))
  · rfl

/-- A word is read up to what no name goes on with. -/
theorem next_word {x : String} (hx : IsWord x) {rest : List Char} (hrest : Halts isNameRest rest) :
    next (x.toList ++ rest) = (ofWord x, rest) := by
  obtain ⟨c, cs, hlist, hc, hcs⟩ := hx
  have hx : String.ofList (c :: cs) = x := by rw [← hlist, String.ofList_toList]
  rw [hlist, List.cons_append, next_plain (plain_of_isNameRest (isNameRest_of_isNameStart hc)),
    if_pos hc, takeWhile_run hcs hrest, dropWhile_run hcs hrest, hx]

theorem next_numeral {digits rest : List Char} (h : IsNumeral digits)
    (hrest : Halts Char.isDigit rest) : next (digits ++ rest) = (ofDigits digits, rest) := by
  obtain ⟨d, ds, rfl⟩ := List.exists_cons_of_ne_nil h.ne_nil
  obtain ⟨hd, hds⟩ := List.forall_mem_cons.1 h.isDigit
  rw [List.cons_append, next_plain (plain_of_isNameRest (isNameRest_of_isDigit hd)),
    if_neg (Bool.eq_false_iff.1 (not_isNameStart_of_isDigit hd)), if_pos hd,
    takeWhile_run hds hrest, dropWhile_run hds hrest]

theorem ne_quote_of_not_mem {cs : List Char} (h : '"' ∉ cs) :
    ∀ c ∈ cs, decide (c ≠ '"') = true := by
  intro c hc
  refine decide_eq_true ?_
  rintro rfl
  exact h hc

/-- A text is read up to its closing quote. -/
theorem next_text {x : String} (hx : '"' ∉ x.toList) {rest : List Char}
    (hrest : Halts (· ≠ '"') rest) : next ('"' :: x.toList ++ rest) = (str x, rest.tail) := by
  have hx := ne_quote_of_not_mem hx
  rw [List.cons_append, next_quote, takeWhile_run hx hrest, dropWhile_run hx hrest,
    String.ofList_toList]

/-- The characters of a word are read as its token. -/
theorem next_of_word {t : Token} {l rest : List Char} (h : Word t l rest) :
    next (l ++ rest) = (t, rest) := by
  cases h with
  | sign ht heq =>
    rcases sign?_of_mem_signs ht with ⟨c, hc, hspelling⟩ | rfl | rfl
    · rw [hspelling, List.singleton_append, next_sign hc, ofSign_of_ne heq]
    · rfl
    · rfl
  | keyword ht hrest => rw [next_word (isWord_keyword ht) hrest, ofWord_keyword ht]
  | name hx hrest => rw [next_word hx.isWord hrest, ofWord_of_ne hx.not_keyword]
  | number hdigits hle hrest =>
    rw [next_numeral hdigits hrest, ofDigits, valueOfDigits_eq, if_pos hle]
  | text hx =>
    rw [List.append_assoc, List.singleton_append]
    refine next_text hx ?_
    rintro c ⟨⟩
    decide
  | unclosed hx => exact next_text hx (fun c hc => nomatch hc)

/-- The characters that words start with. -/
inductive Starts (c : Char) : Prop
  | sign {t} : sign? c = some t → Starts c
  | quote : c = '"' → Starts c
  | name : isNameStart c = true → Starts c
  | digit : c.isDigit = true → Starts c

/-- A word starts with a letter, a digit, an underscore, a sign or a quote. -/
theorem Word.starts {t : Token} {c : Char} {l rest : List Char} (h : Word t (c :: l) rest) :
    Starts c := by
  generalize hcl : c :: l = cl at h
  cases h with
  | sign ht _ =>
    rcases sign?_of_mem_signs ht with ⟨d, hd, hspelling⟩ | rfl | rfl
    · obtain ⟨rfl, -⟩ := List.cons.inj (hcl.trans hspelling)
      exact .sign hd
    · obtain ⟨rfl, -⟩ := List.cons.inj hcl
      exact .sign rfl
    · obtain ⟨rfl, -⟩ := List.cons.inj hcl
      exact .sign rfl
  | keyword ht _ =>
    obtain ⟨_, _, hlist, hd, -⟩ := isWord_keyword ht
    obtain ⟨rfl, -⟩ := List.cons.inj (hcl.trans hlist)
    exact .name hd
  | name hx _ =>
    obtain ⟨_, _, hlist, hd, -⟩ := hx.isWord
    obtain ⟨rfl, -⟩ := List.cons.inj (hcl.trans hlist)
    exact .name hd
  | number hdigits _ _ => exact .digit (hdigits.isDigit c (hcl ▸ List.mem_cons_self))
  | text _ | unclosed _ => exact .quote (List.cons.inj hcl).1

theorem halts_nil (p : Char → Bool) : Halts p [] :=
  nofun

theorem isNumeral_singleton {c : Char} (h : c.isDigit = true) : IsNumeral [c] where
  ne_nil := List.cons_ne_nil _ _
  isDigit _ hd := List.mem_singleton.1 hd ▸ h

/-- A word may consist of no more than its first character. -/
theorem Starts.exists_word {c : Char} (h : Starts c) : ∃ t, Word t [c] [] := by
  cases h with
  | @sign t ht =>
    have hword : Word t t.spelling.toList [] := .sign (mem_signs_of_sign? ht) fun _ => nofun
    rw [spelling_of_sign? ht, String.toList_singleton] at hword
    exact ⟨t, hword⟩
  | quote hc =>
    subst hc
    exact ⟨str "", .unclosed (x := "") List.not_mem_nil⟩
  | name hc =>
    have hname : IsName (String.singleton c) := by
      refine ⟨⟨c, [], String.toList_singleton c, hc, nofun⟩, fun t ht heq => ?_⟩
      -- Keywords are longer than one character.
      have hlist := congrArg String.toList heq
      rw [String.toList_singleton] at hlist
      simp only [keywords, List.mem_cons, List.not_mem_nil, or_false] at ht
      rcases ht with rfl | rfl | rfl | rfl | rfl | rfl | rfl <;> cases hlist
    have hword := Word.name hname (halts_nil _)
    rw [String.toList_singleton] at hword
    exact ⟨_, hword⟩
  | digit hc =>
    have hle : Nat.ofDigitChars 10 [c] 0 ≤ maxInt := by
      have := (Char.isDigit_iff_toNat.1 hc).2
      simp only [Nat.ofDigitChars_cons, Nat.ofDigitChars_nil, maxInt, Char.reduceToNat] at this ⊢
      omega
    exact ⟨_, .number (isNumeral_singleton hc) hle (halts_nil _)⟩

/-- A character that starts no word is illegal. -/
theorem next_stray {c : Char} (hblank : isBlank c = false) (h : ¬Starts c) (cs : List Char) :
    next (c :: cs) = (illegal (String.singleton c), cs) := by
  have hsign : sign? c = none := Option.eq_none_iff_forall_ne_some.2 fun t ht => h (.sign ht)
  rw [next_plain ⟨hblank, hsign, fun hc => h (.quote hc)⟩, if_neg (fun hc => h (.name hc)),
    if_neg (fun hc => h (.digit hc))]

/-- Scanning takes the lexeme of the first token. -/
theorem next_of_lexeme {t : Token} {l rest : List Char} (h : Lexeme t l rest) :
    next (l ++ rest) = (t, rest) := by
  cases h with
  | word h => exact next_of_word h
  | outOfRange hdigits hlt hrest =>
    rw [next_numeral hdigits hrest, ofDigits, valueOfDigits_eq, if_neg (Nat.not_le_of_lt hlt)]
  | stray hblank hword =>
    -- A character that words start with would be one on its own, before the end.
    refine next_stray hblank (fun hstarts => ?_) rest
    obtain ⟨t, h⟩ := hstarts.exists_word
    exact hword t [] [] h

/-- A sign that is read has a lexeme, of one character or two. -/
theorem lexeme_ofSign {c : Char} {t : Token} (h : sign? c = some t) (cs : List Char) :
    ∃ l, c :: cs = l ++ (ofSign t cs).2 ∧ Lexeme (ofSign t cs).1 l (ofSign t cs).2 := by
  have hc : t.spelling.toList = [c] := by rw [spelling_of_sign? h, String.toList_singleton]
  unfold ofSign
  split
  · obtain ⟨rfl, -⟩ := List.cons.inj hc
    exact ⟨_, rfl, .word (.sign (t := eq) (by decide) fun hmem => absurd hmem (by decide))⟩
  · obtain ⟨rfl, -⟩ := List.cons.inj hc
    exact ⟨_, rfl, .word (.sign (t := ne) (by decide) fun hmem => absurd hmem (by decide))⟩
  · next hassign hbang =>
    refine ⟨[c], rfl, .word (hc ▸ .sign (mem_signs_of_sign? h) fun hmem hhead => ?_)⟩
    obtain ⟨ds, rfl⟩ := List.head?_eq_some_iff.1 hhead
    simp only [List.mem_cons, List.not_mem_nil, or_false] at hmem
    rcases hmem with rfl | rfl
    · exact hassign ds rfl rfl
    · exact hbang ds rfl rfl

theorem lexeme_ofWord {x : String} (hx : IsWord x) {rest : List Char}
    (hrest : Halts isNameRest rest) : Lexeme (ofWord x) x.toList rest := by
  by_cases h : ∃ t ∈ keywords, t.spelling = x
  · obtain ⟨t, ht, rfl⟩ := h
    rw [ofWord_keyword ht]
    exact .word (.keyword ht hrest)
  · have hne : ∀ t ∈ keywords, t.spelling ≠ x := fun t ht heq => h ⟨t, ht, heq⟩
    rw [ofWord_of_ne hne]
    exact .word (.name ⟨hx, hne⟩ hrest)

/-- Digits are the lexeme of a number, or of an illegal token if this is out of range. -/
theorem lexeme_ofDigits {digits rest : List Char} (h : IsNumeral digits)
    (hrest : Halts Char.isDigit rest) : Lexeme (ofDigits digits) digits rest := by
  rw [ofDigits, valueOfDigits_eq]
  split
  · next hle => exact .word (.number h hle hrest)
  · next hlt => exact .outOfRange h (Nat.lt_of_not_le hlt) hrest

theorem not_mem_takeWhile_ne (cs : List Char) :
    '"' ∉ (String.ofList (cs.takeWhile (· ≠ '"'))).toList := by
  rw [String.toList_ofList]
  intro hmem
  have := of_mem_takeWhile hmem
  simp at this

/-- A text has a lexeme, with a closing quote or without one at the end. -/
theorem lexeme_quote (cs : List Char) :
    ∃ l, '"' :: cs = l ++ (next ('"' :: cs)).2 ∧
      Lexeme (next ('"' :: cs)).1 l (next ('"' :: cs)).2 := by
  have hsplit : cs.takeWhile (· ≠ '"') ++ cs.dropWhile (· ≠ '"') = cs :=
    List.takeWhile_append_dropWhile
  have hhalts := halts_dropWhile (· ≠ '"') cs
  rw [next_quote]
  generalize hrest : cs.dropWhile (· ≠ '"') = rest at hsplit hhalts
  cases rest with
  | nil =>
    -- No quote follows, so the text goes on to the end.
    refine ⟨'"' :: cs.takeWhile (· ≠ '"'), by rw [List.cons_append, List.tail_nil, hsplit], ?_⟩
    have := Lexeme.word (.unclosed (not_mem_takeWhile_ne cs))
    rwa [String.toList_ofList] at this
  | cons c rest =>
    obtain rfl : c = '"' := by simpa using hhalts c rfl
    refine ⟨'"' :: cs.takeWhile (· ≠ '"') ++ ['"'], by simpa using hsplit.symm, ?_⟩
    have := Lexeme.word (@Word.text _ rest (not_mem_takeWhile_ne cs))
    rwa [String.toList_ofList] at this

/-- What scanning takes for the first token is its lexeme. -/
theorem lexeme_next {c : Char} (hblank : isBlank c = false) (cs : List Char) :
    ∃ l, c :: cs = l ++ (next (c :: cs)).2 ∧ Lexeme (next (c :: cs)).1 l (next (c :: cs)).2 := by
  -- The first character is asked for in the order of scanning: a sign, a quote, the start of
  -- a name, a digit, or none of them.
  by_cases hsign : ∃ t, sign? c = some t
  · obtain ⟨t, ht⟩ := hsign
    rw [next_sign ht]
    exact lexeme_ofSign ht cs
  by_cases hquote : c = '"'
  · subst hquote
    exact lexeme_quote cs
  have hplain : Plain c :=
    ⟨hblank, Option.eq_none_iff_forall_ne_some.2 fun t ht => hsign ⟨t, ht⟩, hquote⟩
  rw [next_plain hplain]
  split
  · next hstart =>
    have hword : IsWord (String.ofList (c :: cs.takeWhile isNameRest)) :=
      ⟨c, _, String.toList_ofList, hstart, fun d hd => of_mem_takeWhile hd⟩
    refine ⟨c :: cs.takeWhile isNameRest, by simp, ?_⟩
    have := lexeme_ofWord hword (halts_dropWhile isNameRest cs)
    rwa [String.toList_ofList] at this
  · next hstart =>
    split
    · next hdigit =>
      have hnumeral : IsNumeral (c :: cs.takeWhile Char.isDigit) :=
        ⟨List.cons_ne_nil _ _,
          List.forall_mem_cons.2 ⟨hdigit, fun d hd => of_mem_takeWhile hd⟩⟩
      refine ⟨c :: cs.takeWhile Char.isDigit, by simp, ?_⟩
      exact lexeme_ofDigits hnumeral (halts_dropWhile Char.isDigit cs)
    · next hdigit =>
      refine ⟨[c], rfl, .stray hblank fun t l rest hword => ?_⟩
      cases hword.starts with
      | sign h => exact hsign ⟨_, h⟩
      | quote h => exact hquote h
      | name h => exact hstart h
      | digit h => exact hdigit h

/-! ## All the tokens -/

/-- No word is the end of the source. -/
theorem Word.ne_eof {t : Token} {l rest : List Char} (h : Word t l rest) : t ≠ eof := by
  cases h with
  | sign ht _ | keyword ht _ =>
    rintro rfl
    exact absurd ht (by decide)
  | _ => nofun

theorem Lexeme.ne_eof {t : Token} {l rest : List Char} (h : Lexeme t l rest) : t ≠ eof := by
  cases h with
  | word h => exact h.ne_eof
  | _ => nofun

/-- The tokens are the first one and those after it. -/
theorem scan_of_next {cs rest : List Char} {t : Token} (h : next cs = (t, rest)) (ht : t ≠ eof) :
    scan cs = t :: scan rest := by
  cases cs with
  | nil => exact absurd (congrArg Prod.fst h).symm ht
  | cons c cs =>
    rw [scan, h]
    exact if_neg ht

theorem scan_of_next_eof {cs : List Char} (h : (next cs).1 = eof) : scan cs = [] := by
  cases cs with
  | nil => rw [scan]
  | cons c cs =>
    rw [scan]
    exact if_pos h

/-- After the last token there is nothing but the end. -/
theorem next_of_blank {blanks : List Char} (h : ∀ c ∈ blanks, isBlank c = true) :
    next blanks = (eof, []) := by
  have hnext := next_blanks h []
  rwa [List.append_nil] at hnext

/-- A source that is split into the lexemes of tokens is scanned as them. -/
theorem Splits.scan_eq {cs : List Char} {ts : List Token} (h : Splits cs ts) : scan cs = ts := by
  induction h with
  | nil hblanks => exact scan_of_next_eof (congrArg Prod.fst (next_of_blank hblanks))
  | cons hblanks hl _ ih =>
    have hnext := next_of_lexeme hl
    rw [← next_blanks hblanks, ← List.append_assoc] at hnext
    rw [scan_of_next hnext hl.ne_eof, ih]

/-- A source is split into the lexemes of the tokens that it is scanned as. -/
theorem splits_scan (cs : List Char) : Splits cs (scan cs) := by
  -- What follows the first lexeme is shorter.
  induction hn : cs.length using Nat.strongRecOn generalizing cs with
  | _ n ih =>
    subst hn
    have hblanks : ∀ c ∈ cs.takeWhile isBlank, isBlank c = true := fun c hc => of_mem_takeWhile hc
    have hsplit : cs.takeWhile isBlank ++ cs.dropWhile isBlank = cs :=
      List.takeWhile_append_dropWhile
    have hhalts := halts_dropWhile isBlank cs
    generalize hrest : cs.dropWhile isBlank = rest at hsplit hhalts
    cases rest with
    | nil =>
      rw [List.append_nil] at hsplit
      rw [hsplit] at hblanks
      rw [scan_of_next_eof (congrArg Prod.fst (next_of_blank hblanks))]
      exact .nil hblanks
    | cons c rest =>
      obtain ⟨l, hl, hlexeme⟩ := lexeme_next (hhalts c rfl) rest
      have hnext : next cs = next (c :: rest) := by rw [← hsplit, next_blanks hblanks]
      have hlength : (next (c :: rest)).2.length < cs.length := by
        have := (next_suffix c rest).length_le
        rw [← hsplit, List.length_append, List.length_cons]
        omega
      have hsplits := Splits.cons hblanks hlexeme (ih _ hlength _ rfl)
      rw [List.append_assoc, ← hl, hsplit] at hsplits
      rwa [scan_of_next (hnext.trans (Prod.eta _).symm) hlexeme.ne_eof]

/-- A source can be split into the tokens that are scanned, and into no others. -/
theorem splits_iff {cs : List Char} {ts : List Token} : Splits cs ts ↔ ts = scan cs := by
  constructor
  · intro h
    exact h.scan_eq.symm
  · rintro rfl
    exact splits_scan cs

/-- The end of a source is no part of it. -/
theorem Splits.eof_not_mem {cs : List Char} {ts : List Token} (h : Splits cs ts) : eof ∉ ts := by
  induction h with
  | nil _ => exact List.not_mem_nil
  | cons _ hl _ ih => exact List.not_mem_cons_of_ne_of_not_mem hl.ne_eof.symm ih

/-- Where nothing is left, the end is read as often as is asked for. -/
theorem nexts_of_blank {blanks : List Char} (h : ∀ c ∈ blanks, isBlank c = true) (n : Nat) :
    nexts n blanks = List.replicate n eof := by
  induction n generalizing blanks with
  | zero => rfl
  | succ n ih => rw [nexts, next_of_blank h, @ih [] nofun, List.replicate_succ]

/-- The tokens that are asked for one after the other are those of the source and then
    its end, however often it is asked for. -/
theorem Splits.nexts_eq {cs : List Char} {ts : List Token} (h : Splits cs ts) (n : Nat) :
    nexts (ts.length + n) cs = ts ++ List.replicate n eof := by
  induction h with
  | nil hblanks => rw [List.length_nil, Nat.zero_add, List.nil_append, nexts_of_blank hblanks]
  | @cons blanks l rest t ts hblanks hl _ ih =>
    have hnext := next_of_lexeme hl
    rw [← next_blanks hblanks, ← List.append_assoc] at hnext
    rw [List.length_cons, Nat.add_right_comm, nexts, hnext, ih, List.cons_append]

/-- Every source can be split into lexemes, with blanks between them, in the tokens that
    it is scanned as and in no others. None of these is the end of the source, which is
    given after them as often as it is asked for. -/
theorem splits_iff_eq_ofString (source : String) :
    (∀ ts, Splits source.toList ts ↔ ts = ofString source) ∧
    eof ∉ ofString source ∧
    ∀ n, nexts ((ofString source).length + n) source.toList =
      ofString source ++ List.replicate n eof := by
  have h := splits_scan source.toList
  exact ⟨fun ts => splits_iff, h.eof_not_mem, h.nexts_eq⟩

end Monkey.Token
