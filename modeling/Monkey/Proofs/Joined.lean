import Mathlib.Algebra.Group.Nat.Even
import Monkey.Proofs.Lexeme.Written

/-!
# Sources put together

A source that leaves no text open, so that its quotes are even in number, can be put before
another one: where a character comes first that no name or number goes on with and that is
no equals sign, the tokens are those of the one and then those of the other
(`Token.Splits.append`). Blanks are such characters, and so are the signs that make no token
with an equals sign (`Token.ofString_append`).

A program ends at a semicolon after it, whatever stands there next: reading goes on as if
the source began there, and finds the same statements and errors (`Program.read_append`). So
programs that are parsed from lines are parsed from the lines put together, with semicolons
at their ends (`Program.parse_intercalate`).
-/

namespace Monkey

namespace Token

open Text (isBlank)

/-! ## Lexemes -/

/-- A run of characters stops before the first part, or before the second if that is empty. -/
theorem Halts.append {p : Char → Bool} {cs rest : List Char} (h : Halts p cs)
    (hrest : Halts p rest) : Halts p (cs ++ rest) := by
  cases cs with
  | nil => exact hrest
  | cons c cs => exact h

/-- Nothing goes on the last token before the characters, if it is no text that is open. -/
structure Separate (rest : List Char) : Prop where
  halts : Halts isNameRest rest
  head?_ne : rest.head? ≠ some '='

/-- What goes on no name goes on no number. -/
theorem Separate.halts_isDigit {rest : List Char} (h : Separate rest) :
    Halts Char.isDigit rest := by
  intro c hc
  refine Bool.eq_false_iff.2 fun hdigit => ?_
  exact Bool.eq_false_iff.1 (h.halts c hc) (isNameRest_of_isDigit hdigit)

theorem quote_not_mem_of_all {cs : List Char} {p : Char → Bool} (h : ∀ c ∈ cs, p c = true)
    (hp : p '"' = false) : '"' ∉ cs :=
  fun hmem => Bool.eq_false_iff.1 hp (h _ hmem)

/-- There is no quote in a word. -/
theorem quote_not_mem_of_isWord {x : String} (h : IsWord x) : '"' ∉ x.toList := by
  obtain ⟨c, cs, hlist, hc, hcs⟩ := h
  rw [hlist]
  refine quote_not_mem_of_all (p := isNameRest) ?_ (by decide)
  exact List.forall_mem_cons.2 ⟨isNameRest_of_isNameStart hc, hcs⟩

theorem quote_not_mem_of_isNumeral {digits : List Char} (h : IsNumeral digits) : '"' ∉ digits :=
  quote_not_mem_of_all h.isDigit (by decide)

/-- What remains has an even number of quotes if there is none in what is taken away. -/
theorem even_count_right {cs rest : List Char} (h : Even ((cs ++ rest).count '"'))
    (hcs : '"' ∉ cs) : Even (rest.count '"') := by
  rwa [List.count_append, List.count_eq_zero_of_not_mem hcs, Nat.zero_add] at h

/-- A token that is no open text is the same before anything that does not go on it. -/
theorem Word.append {t : Token} {l cs rest : List Char} (h : Word t l cs)
    (heven : Even ((l ++ cs).count '"')) (hrest : Separate rest) :
    Word t l (cs ++ rest) ∧ Even (cs.count '"') := by
  cases h with
  | sign ht heq =>
    have hquote : ∀ t ∈ signs, '"' ∉ t.spelling.toList := by decide
    refine ⟨.sign ht fun hmem => ?_, even_count_right heven (hquote t ht)⟩
    cases cs with
    | nil => exact hrest.head?_ne
    | cons c cs => exact heq hmem
  | keyword ht hhalts =>
    have hquote := quote_not_mem_of_isWord (isWord_keyword ht)
    exact ⟨.keyword ht (hhalts.append hrest.halts), even_count_right heven hquote⟩
  | name hx hhalts =>
    have hquote := quote_not_mem_of_isWord hx.isWord
    exact ⟨.name hx (hhalts.append hrest.halts), even_count_right heven hquote⟩
  | number hdigits hle hhalts =>
    have hquote := quote_not_mem_of_isNumeral hdigits
    exact ⟨.number hdigits hle (hhalts.append hrest.halts_isDigit), even_count_right heven hquote⟩
  | @text x _ hx =>
    refine ⟨.text hx, ?_⟩
    have hcount : ('"' :: x.toList ++ ['"']).count '"' = 2 := by
      simp [List.count_eq_zero_of_not_mem hx]
    rw [List.count_append, hcount, Nat.even_add] at heven
    exact heven.1 (by decide)
  | unclosed hx =>
    -- A text that is open has one quote.
    rw [List.append_nil, List.count_cons_self, List.count_eq_zero_of_not_mem hx] at heven
    exact absurd heven (by decide)

/-- A lexeme that is no open text is the same before anything that does not go on it. -/
theorem Lexeme.append {t : Token} {l cs rest : List Char} (h : Lexeme t l cs)
    (heven : Even ((l ++ cs).count '"')) (hrest : Separate rest) :
    Lexeme t l (cs ++ rest) ∧ Even (cs.count '"') := by
  cases h with
  | word h => exact (h.append heven hrest).imp_left .word
  | outOfRange hdigits hlt hhalts =>
    have hquote := quote_not_mem_of_isNumeral hdigits
    exact ⟨.outOfRange hdigits hlt (hhalts.append hrest.halts_isDigit),
      even_count_right heven hquote⟩
  | @stray c _ hblank hword =>
    have hquote : '"' ∉ [c] := fun hmem => by
      obtain rfl := List.mem_singleton.1 hmem
      exact hword (str "") [] [] (.unclosed (x := "") List.not_mem_nil)
    exact ⟨.stray hblank hword, even_count_right heven hquote⟩

/-- Blanks may stand before a source. -/
theorem Splits.blanks {blanks cs : List Char} {ts : List Token} (h : Splits cs ts)
    (hblanks : ∀ c ∈ blanks, isBlank c = true) : Splits (blanks ++ cs) ts := by
  induction blanks with
  | nil => exact h
  | cons c blanks ih =>
    obtain ⟨hc, hblanks⟩ := List.forall_mem_cons.1 hblanks
    exact (ih hblanks).blank hc

/-- Two sources are put together, the first without an open text. -/
theorem Splits.append {cs rest : List Char} {ts us : List Token} (h : Splits cs ts)
    (heven : Even (cs.count '"')) (hrest : Separate rest) (hus : Splits rest us) :
    Splits (cs ++ rest) (ts ++ us) := by
  induction h with
  | nil hblanks => exact hus.blanks hblanks
  | @cons blanks l cs t ts hblanks hl _ ih =>
    rw [List.append_assoc] at heven
    have heven := even_count_right heven (quote_not_mem_of_all hblanks (by decide))
    obtain ⟨hl, heven⟩ := hl.append heven hrest
    rw [List.append_assoc]
    exact .cons hblanks hl (ih heven)

/-! ## Separators -/

/-- The characters that are tokens of their own, whatever stands before and after them. -/
def separators : List (Char × Token) :=
  [('+', plus), ('-', minus), ('*', asterisk), ('/', slash), ('<', lt), ('>', gt), ('(', lparen),
    (')', rparen), ('{', lbrace), ('}', rbrace), ('[', lbracket), (']', rbracket), (',', comma),
    (';', semicolon), (':', colon)]

/-- A character that goes on no name and is no equals sign keeps apart. -/
theorem Separate.cons {c : Char} (hname : isNameRest c = false) (hne : c ≠ '=')
    (cs : List Char) : Separate (c :: cs) :=
  ⟨halts_cons hname cs, fun h => hne (Option.some.inj h)⟩

/-- A blank keeps apart what it stands between. -/
theorem Separate.of_isBlank {c : Char} (h : isBlank c = true) (cs : List Char) :
    Separate (c :: cs) := by
  refine .cons (Bool.eq_false_iff.2 fun hname => ?_) ?_ cs
  · exact Bool.eq_false_iff.1 (plain_of_isNameRest hname).not_blank h
  · rintro rfl
    exact absurd h (by decide)

theorem Separate.of_mem_separators {c : Char} {t : Token} (h : (c, t) ∈ separators)
    (cs : List Char) : Separate (c :: cs) := by
  have hall : ∀ p ∈ separators, isNameRest p.1 = false ∧ p.1 ≠ '=' := by decide
  exact .cons (hall _ h).1 (hall _ h).2 cs

/-- A separator is the lexeme of its token before any characters. -/
theorem lexeme_of_mem_separators {c : Char} {t : Token} (h : (c, t) ∈ separators)
    (cs : List Char) : Lexeme t [c] cs := by
  have hall : ∀ p ∈ separators,
      p.2 ∈ signs ∧ p.2 ∉ [assign, bang] ∧ p.2.spelling.toList = [p.1] := by decide
  obtain ⟨hsign, hne, hspelling⟩ := hall _ h
  exact hspelling ▸ .word (.sign hsign fun hmem => absurd hmem hne)

/-- A blank stands between two sources, the first without an open text. -/
theorem Splits.append_blank {cs rest : List Char} {ts us : List Token} (h : Splits cs ts)
    (heven : Even (cs.count '"')) {c : Char} (hc : isBlank c = true) (hus : Splits rest us) :
    Splits (cs ++ c :: rest) (ts ++ us) :=
  h.append heven (.of_isBlank hc rest) (hus.blank hc)

/-- A separator stands between two sources, the first without an open text. -/
theorem Splits.append_separator {cs rest : List Char} {ts us : List Token} (h : Splits cs ts)
    (heven : Even (cs.count '"')) {c : Char} {t : Token} (hc : (c, t) ∈ separators)
    (hus : Splits rest us) : Splits (cs ++ c :: rest) (ts ++ t :: us) :=
  h.append heven (.of_mem_separators hc rest) (hus.lexeme (lexeme_of_mem_separators hc rest))

/-- With a character between two sources that is a blank or a separator, the tokens are those
    of the one, the separator, and those of the other, if the first leaves no text open. -/
theorem ofString_append (s s' : String) (heven : Even (s.toList.count '"')) :
    (∀ c, isBlank c = true →
      ofString (s ++ String.singleton c ++ s') = ofString s ++ ofString s') ∧
    ∀ c t, (c, t) ∈ separators →
      ofString (s ++ String.singleton c ++ s') = ofString s ++ t :: ofString s' := by
  have hlist (c : Char) :
      (s ++ String.singleton c ++ s').toList = s.toList ++ c :: s'.toList := by simp
  have hs := splits_scan s.toList
  have hs' := splits_scan s'.toList
  constructor
  · intro c hc
    rw [ofString, hlist]
    exact (hs.append_blank heven hc hs').scan_eq
  · intro c t hc
    rw [ofString, hlist]
    exact (hs.append_separator heven hc hs').scan_eq

/-- A sign does not make a token with an equals sign that a character keeps apart from it, and a
    semicolon in a text is part of the text. -/
theorem ofString_append_bang :
    let s := "x = \"a;b\" !"
    let s' := "= 12"
    Even (s.toList.count '"') ∧ isBlank ' ' = true ∧ ('+', plus) ∈ separators ∧
    ofString (s ++ String.singleton ' ' ++ s') =
      [ident "x", assign, str "a;b", bang] ++ [assign, int 12] ∧
    ofString (s ++ String.singleton '+' ++ s') =
      [ident "x", assign, str "a;b", bang] ++ plus :: [assign, int 12] := by
  intro s s'
  have heven : Even (s.toList.count '"') := by decide
  have hblank : isBlank ' ' = true := by decide
  have hplus : ('+', plus) ∈ separators := by decide
  have hs : ofString s = [ident "x", assign, str "a;b", bang] := by decide +kernel
  have hs' : ofString s' = [assign, int 12] := by decide +kernel
  obtain ⟨happend, hseparator⟩ := ofString_append s s' heven
  rw [happend _ hblank, hseparator _ _ hplus, hs, hs']
  exact ⟨heven, hblank, hplus, rfl, rfl⟩

end Token

/-! ## Statements -/

namespace Grammar

/-- Two lists of statements are put together, with a semicolon between them. -/
theorem SpellsStmts.append {ts us : List Token} {ss ss' : List Stmt} (h' : SpellsStmts us ss')
    (h : SpellsStmts ts ss) : SpellsStmts (ts ++ .semicolon :: us) (ss ++ ss') := by
  obtain ⟨herrors, rfl⟩ := spellsProgram_iff.1 h'
  exact spellsProgram_iff.2 ⟨(h.precedes us).2.trans herrors, (h.precedes us).1⟩

end Grammar

open Token Grammar

/-- The tokens of a source that is parsed spell the program. -/
theorem Program.spells_of_parse {source : String} {p : Program} (h : Program.parse source = .ok p) :
    SpellsProgram (Token.ofString source) p :=
  spellsProgram_iff.2 (Program.parse_eq_ok_iff.1 h)

/-- After a source that is parsed, with no text open in it, and a semicolon, any source is read as
    it is on its own: its statements come after those of the first, and the errors are its own. -/
theorem Program.read_append {s : String} {p : Program} (h : Program.parse s = .ok p)
    (heven : Even (s.toList.count '"')) (s' : String) :
    (Program.read (s ++ ";" ++ s')).program = p ++ (Program.read s').program ∧
      (Program.read (s ++ ";" ++ s')).errors = (Program.read s').errors := by
  have hlist : (s ++ ";" ++ s').toList = s.toList ++ ';' :: s'.toList := by simp
  have hsplits := (splits_scan s.toList).append_separator heven (c := ';') (t := .semicolon)
    (by decide) (splits_scan s'.toList)
  have htokens : ofString (s ++ ";" ++ s') = ofString s ++ .semicolon :: ofString s' := by
    rw [ofString, hlist]
    exact hsplits.scan_eq
  rw [Program.read, htokens]
  exact (Program.spells_of_parse h).precedes _

/-- The first source ends in a choice that could go on with a second block, and leaves out a
    semicolon; the second one has an error before the statements that are read. -/
theorem Program.read_append_cond :
    let s := "let x = \"a;b\" if (x) \x7b f(x) \x7d"
    let s' := "else 1; let y = 2"
    let p : Program := [.bind "x" (.str "a;b"),
      .expr (.cond (.ident "x") [.expr (.call (.ident "f") [.ident "x"])] none)]
    Program.parse s = .ok p ∧ Even (s.toList.count '"') ∧
      (Program.read (s ++ ";" ++ s')).program = p ++ [.expr (.int 1), .bind "y" (.int 2)] ∧
      (Program.read (s ++ ";" ++ s')).errors = [.noExpression .kwElse] := by
  intro s s' p
  have hparse : Program.parse s = .ok p :=
    Program.parse_eq_ok_iff.2 ⟨by decide +kernel, by decide +kernel⟩
  have heven : Even (s.toList.count '"') := by decide
  have hprogram : (Program.read s').program = [.expr (.int 1), .bind "y" (.int 2)] := by
    decide +kernel
  have herrors : (Program.read s').errors = [.noExpression .kwElse] := by decide +kernel
  obtain ⟨happend, happend'⟩ := Program.read_append hparse heven s'
  exact ⟨hparse, heven, happend.trans (by rw [hprogram]), happend'.trans herrors⟩

/-- A semicolon and a newline join two programs, the first without an open text. -/
theorem Program.parse_append_line {s s' : String} {p p' : Program} (h : Program.parse s = .ok p)
    (heven : Even (s.toList.count '"')) (h' : Program.parse s' = .ok p') :
    Program.parse (s ++ ";\n" ++ s') = .ok (p ++ p') := by
  have hlist : (s ++ ";\n" ++ s').toList = s.toList ++ ';' :: '\n' :: s'.toList := by simp
  have hsplits := (splits_scan s.toList).append_separator heven (c := ';') (t := .semicolon)
    (by decide) ((splits_scan s'.toList).blank (c := '\n') (by decide))
  rw [← hlist] at hsplits
  exact Program.parse_of_splits hsplits ((Program.spells_of_parse h').append
    (Program.spells_of_parse h))

/-- Lines that are parsed are parsed together, with a semicolon at the end of each but the
    last, to all their statements. -/
theorem Program.parse_intercalate {lines : List String}
    (hparse : ∀ line ∈ lines, Program.parse line = .ok (Program.read line).program)
    (heven : ∀ line ∈ lines, Even (line.toList.count '"')) :
    Program.parse (";\n".intercalate lines) =
      .ok (lines.flatMap fun line => (Program.read line).program) := by
  induction lines with
  | nil => exact Program.parse_of_splits .empty .nil
  | cons line lines ih =>
    obtain ⟨hline, hparse⟩ := List.forall_mem_cons.1 hparse
    obtain ⟨hquotes, heven⟩ := List.forall_mem_cons.1 heven
    cases lines with
    | nil => simpa using hline
    | cons _ _ =>
      rw [String.intercalate_cons_cons, List.flatMap_cons]
      exact Program.parse_append_line hline hquotes (ih hparse heven)

/-- A carriage return at the end of a source does not matter. -/
theorem Program.read_of_carriageReturn {s s' : String} (h : s.toList ++ ['\r'] = s'.toList)
    (heven : Even (s'.toList.count '"')) : Program.read s' = Program.read s := by
  rw [← h, List.count_append, List.count_singleton, if_neg (by decide), Nat.add_zero] at heven
  have hsplits := (splits_scan s.toList).append_blank heven (c := '\r') (by decide) .empty
  rw [h, List.append_nil] at hsplits
  have hscan : Token.ofString s' = Token.ofString s := hsplits.scan_eq
  rw [Program.read, Program.read, hscan]

end Monkey
