import Monkey.Text.Characters
import Monkey.Token

/-!
# Scanning

Cuts a source text into tokens. Blanks separate tokens and belong to none. Each
token is as long as possible: a name takes all the letters, digits and
underscores that follow its first character, a number all the digits, and `==`
and `!=` are one token each.

* A run of digits is a number if it is at most `Token.maxInt`, and illegal
  otherwise.
* A text goes from a quote to the next one, or to the end of the source if there
  is none; nothing is escaped.
* Any other character is illegal.

`Token.next` gives the first token and the characters after it. As every token
takes a character (`length_next_lt`), the tokens of a source come to an end, and
`Token.scan` lists them.
-/

namespace Monkey.Token

open Text (isBlank)

/-! ## The classes of characters -/

/-- A letter or an underscore; names start with one. -/
def isNameStart (c : Char) : Bool :=
  c.isAlpha || c == '_'

/-- A character that a name goes on with. -/
def isNameRest (c : Char) : Bool :=
  isNameStart c || c.isDigit

/-- The token of a sign, where the character is one. -/
def sign? : Char → Option Token
  | '=' => some assign
  | '+' => some plus
  | '-' => some minus
  | '!' => some bang
  | '*' => some asterisk
  | '/' => some slash
  | '<' => some lt
  | '>' => some gt
  | '(' => some lparen
  | ')' => some rparen
  | '{' => some lbrace
  | '}' => some rbrace
  | '[' => some lbracket
  | ']' => some rbracket
  | ',' => some comma
  | ';' => some semicolon
  | ':' => some colon
  | _ => none

/-- A sign is spelled as itself. -/
theorem spelling_of_sign? {c : Char} {t : Token} (h : sign? c = some t) :
    t.spelling = String.singleton c := by
  unfold sign? at h
  split at h <;> cases h <;> rfl

/-! ## The first token -/

/-- The token that starts with a sign, and what follows it: `=` and `!` make one
    token with an equals sign right after them. -/
def ofSign : Token → List Char → Token × List Char
  | assign, '=' :: cs => (eq, cs)
  | bang, '=' :: cs => (ne, cs)
  | t, cs => (t, cs)

/-- The greatest number that can be written: that of a signed 64-bit word. -/
def maxInt : Nat := 9223372036854775807

/-- The number that decimal digits denote. -/
def valueOfDigits (digits : List Char) : Nat :=
  digits.foldl (fun n d => 10 * n + (d.toNat - '0'.toNat)) 0

/-- The token of a run of digits. -/
def ofDigits (digits : List Char) : Token :=
  if valueOfDigits digits ≤ maxInt then int (valueOfDigits digits)
  else illegal (String.ofList digits)

/-- The first token of a source and the characters after it, once the blanks
    before it are skipped: at the end of the source, `eof` and nothing. -/
def next : List Char → Token × List Char
  | [] => (eof, [])
  | c :: cs =>
    if isBlank c then next cs
    else match sign? c with
      | some t => ofSign t cs
      | none =>
        if c = '"' then
          (str (String.ofList (cs.takeWhile (· ≠ '"'))), (cs.dropWhile (· ≠ '"')).tail)
        else if isNameStart c then
          (ofWord (String.ofList (c :: cs.takeWhile isNameRest)), cs.dropWhile isNameRest)
        else if c.isDigit then
          (ofDigits (c :: cs.takeWhile Char.isDigit), cs.dropWhile Char.isDigit)
        else (illegal (String.singleton c), cs)

/-- What follows a sign is part of what stood after it. -/
theorem ofSign_suffix (t : Token) (cs : List Char) : (ofSign t cs).2 <:+ cs := by
  unfold ofSign
  split
  · exact List.suffix_cons _ _
  · exact List.suffix_cons _ _
  · exact List.suffix_rfl

/-- The first token takes at least one character. -/
theorem next_suffix (c : Char) (cs : List Char) : (next (c :: cs)).2 <:+ cs := by
  induction cs generalizing c with
  | nil =>
    unfold next
    split
    · exact List.suffix_rfl
    · split
      · exact ofSign_suffix _ _
      · repeat' split
        all_goals simp
  | cons d ds ih =>
    rw [next]
    split
    · exact (ih d).trans (List.suffix_cons _ _)
    · split
      · exact ofSign_suffix _ _
      · repeat' split
        · exact (List.tail_suffix _).trans (List.dropWhile_suffix _)
        · exact List.dropWhile_suffix _
        · exact List.dropWhile_suffix _
        · exact List.suffix_rfl

/-! ## All the tokens -/

/-- The tokens of a source, in order, without the end of the source. -/
def scan : List Char → List Token
  | [] => []
  | c :: cs =>
    let first := next (c :: cs)
    if first.1 = eof then [] else first.1 :: scan first.2
termination_by cs => cs.length
decreasing_by
  have := (next_suffix c cs).length_le
  simp only [List.length_cons]
  omega

/-- The first `n` tokens asked for; the end of the source is given as often as it
    is asked for. -/
def nexts : Nat → List Char → List Token
  | 0, _ => []
  | n + 1, cs => (next cs).1 :: nexts n (next cs).2

/-- The tokens of a source text. -/
def ofString (source : String) : List Token :=
  scan source.toList

end Monkey.Token
