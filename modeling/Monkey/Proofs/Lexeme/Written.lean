import Monkey.Proofs.Grammar.Complete
import Monkey.Proofs.Grammar.Leaves
import Monkey.Proofs.Lexeme

/-!
# Written tokens

How a token is written for it to be scanned again: as it is spelled, a text in quotes
(`Token.written`). Not every token can be written: a name must be one, a number in
range, and a text free of quotes (`Token.Writable`).

* Whatever is scanned can be written, the illegal apart (`Lexeme.writable`), so all the
  leaves of a program that is read can (`Program.writable_leaves`).
* A token that is written is its lexeme where what follows lets it end
  (`Writable.lexeme`).
-/

namespace Monkey

namespace Token

/-- How a token is written in a source. -/
def written : Token → String
  | str x => "\"" ++ x ++ "\""
  | t => t.spelling

/-- The token can be written, so that it is scanned again. -/
def Writable : Token → Prop
  | illegal _ | eof => False
  | ident x => IsName x
  | int n => n ≤ maxInt
  | str x => '"' ∉ x.toList
  | _ => True

/-- The token is not made longer by what follows. -/
structure Ends (t : Token) (rest : List Char) : Prop where
  ne_equals : t ∈ [assign, bang] → rest.head? ≠ some '='
  halts : t ∉ signs → Halts isNameRest rest

/-- Every token ends where neither a character of names nor an equals sign comes next. -/
theorem Ends.of_halts (t : Token) {rest : List Char} (h : Halts isNameRest rest)
    (heq : rest.head? ≠ some '=') : Ends t rest :=
  ⟨fun _ => heq, fun _ => h⟩

theorem Ends.nil (t : Token) : Ends t [] :=
  .of_halts t (halts_nil _) nofun

theorem halts_cons {p : Char → Bool} {c : Char} (h : p c = false) (cs : List Char) :
    Halts p (c :: cs) := by
  rintro _ ⟨⟩
  exact h

/-- A blank ends every token. -/
theorem Ends.of_blank (t : Token) (cs : List Char) : Ends t (' ' :: cs) :=
  .of_halts t (halts_cons (by decide) cs) (by simp)

theorem not_mem_signs_of_mem_keywords : ∀ t ∈ keywords, t ∉ signs := by
  decide

/-- What is neither a name nor a number nor a text is written as a sign or a keyword. -/
theorem mem_of_isMark {t : Token} (h : t.isMark = true) : t ∈ signs ∨ t ∈ keywords := by
  cases t <;> first | decide | cases h

/-- Signs and keywords carry no name, number or text. -/
theorem not_isLeaf_of_mem : ∀ t ∈ signs ++ keywords, t.isLeaf = false := by
  decide

theorem Writable.of_isMark {t : Token} (h : t.isMark = true) : Writable t := by
  cases t with
  | illegal _ | eof | ident _ | int _ | str _ => cases h
  | _ => trivial

theorem written_of_isMark {t : Token} (h : t.isMark = true) : t.written = t.spelling := by
  cases t <;> first | rfl | cases h

/-- The decimal digits of a number are digits, at least one. -/
theorem isNumeral_toDigits (n : Nat) : IsNumeral (Nat.toDigits 10 n) where
  ne_nil := Nat.toDigits_ne_nil
  isDigit _ hd := Nat.isDigit_of_mem_toDigits (by decide) (by decide) hd

theorem Halts.mono {p q : Char → Bool} (hpq : ∀ c, p c = true → q c = true) {rest : List Char}
    (h : Halts q rest) : Halts p rest := by
  intro c hc
  refine Bool.eq_false_iff.2 fun hp => ?_
  exact Bool.eq_false_iff.1 (h c hc) (hpq c hp)

/-- A token that is written is its lexeme where it ends. -/
theorem Writable.lexeme {t : Token} (h : Writable t) {rest : List Char} (hrest : Ends t rest) :
    Lexeme t t.written.toList rest := by
  by_cases hmark : t.isMark = true
  · rw [written_of_isMark hmark]
    rcases mem_of_isMark hmark with hsign | hkeyword
    · exact .word (.sign hsign hrest.ne_equals)
    · exact .word (.keyword hkeyword (hrest.halts (not_mem_signs_of_mem_keywords t hkeyword)))
  cases t with
  | ident x => exact .word (.name h (hrest.halts (by simp [signs])))
  | int n =>
    -- A number is written in digits without leading zeros, which have it as their value.
    have hhalts := (hrest.halts (by simp [signs])).mono fun c hc => isNameRest_of_isDigit hc
    have hvalue : Nat.ofDigitChars 10 (Nat.toDigits 10 n) 0 = n := Nat.ofDigitChars_ten_toDigits
    have hword := Word.number (isNumeral_toDigits n) (hvalue.symm ▸ h) hhalts
    rw [hvalue, ← Nat.toList_repr] at hword
    exact .word hword
  | str x =>
    have hlist : (str x).written.toList = '"' :: x.toList ++ ['"'] := by
      simp [written, String.toList_append]
    rw [hlist]
    exact .word (.text h)
  | illegal _ | eof => exact h.elim
  | _ => exact absurd rfl hmark

/-- What is scanned can be written if it carries a name, a number or a text. -/
theorem Lexeme.writable {t : Token} {l rest : List Char} (h : Lexeme t l rest)
    (ht : t.isLeaf = true) : Writable t := by
  cases h with
  | word h =>
    cases h with
    | sign hsign _ =>
      exact absurd ht (Bool.eq_false_iff.1 (not_isLeaf_of_mem t (List.mem_append_left _ hsign)))
    | keyword hkeyword _ =>
      exact absurd ht (Bool.eq_false_iff.1 (not_isLeaf_of_mem t (List.mem_append_right _ hkeyword)))
    | name hx _ => exact hx
    | number _ hle _ => exact hle
    | text hx | unclosed hx => exact hx
  | outOfRange _ _ _ | stray _ _ => cases ht

/-- The tokens that a source is split into can be written, apart from illegal ones. -/
theorem Splits.writable {cs : List Char} {ts : List Token} (h : Splits cs ts) :
    ∀ t ∈ ts, t.isLeaf = true → Writable t := by
  induction h with
  | nil _ => exact nofun
  | cons _ hl _ ih => exact List.forall_mem_cons.2 ⟨hl.writable, ih⟩

/-- A blank may come before a source. -/
theorem Splits.blank {c : Char} (hc : Text.isBlank c = true) {cs : List Char} {ts : List Token}
    (h : Splits cs ts) : Splits (c :: cs) ts := by
  cases h with
  | nil hblanks => exact .nil (List.forall_mem_cons.2 ⟨hc, hblanks⟩)
  | cons hblanks hl h => exact .cons (List.forall_mem_cons.2 ⟨hc, hblanks⟩) hl h

theorem Splits.empty : Splits [] [] :=
  .nil nofun

/-- A lexeme may come before a source that does not go on it. -/
theorem Splits.lexeme {t : Token} {l rest : List Char} {ts : List Token} (h : Splits rest ts)
    (hl : Lexeme t l rest) : Splits (l ++ rest) (t :: ts) :=
  @Splits.cons [] l rest t ts nofun hl h

/-- A token may be written before any others, where it ends. -/
theorem Splits.write {t : Token} {rest : List Char} {ts : List Token} (h : Splits rest ts)
    (ht : Writable t) (hrest : Ends t rest) : Splits (t.written.toList ++ rest) (t :: ts) :=
  h.lexeme (ht.lexeme hrest)

/-- A token may be written before a blank. -/
theorem Splits.write_blank {cs : List Char} {ts : List Token} (h : Splits cs ts) {t : Token}
    (ht : Writable t) : Splits (t.written.toList ++ ' ' :: cs) (t :: ts) :=
  (h.blank (by decide)).write ht (.of_blank t cs)

end Token

open Token (Writable)

/-- The names, numbers and texts of a program that is read, with or without errors, can
    be written. -/
theorem Program.writable_leaves (source : String) :
    ∀ t ∈ (Program.read source).program.leaves, Writable t :=
  Parse.leaves_program (Token.splits_scan source.toList).writable

/-- A program is parsed from any source that is split into tokens that spell it. -/
theorem Program.parse_of_splits {source : String} {ts : List Token} {p : Program}
    (hts : Token.Splits source.toList ts) (hp : Grammar.SpellsProgram ts p) :
    Program.parse source = .ok p := by
  rw [Token.splits_iff.1 hts] at hp
  exact Program.parse_eq_ok_iff.2 (Grammar.spellsProgram_iff.1 hp)

end Monkey
