/-!
# Tokens

The words of the language. A token is of one of 31 kinds; four kinds carry what
was written (a name, a number, a text, a part of the source that is no word),
the others have one spelling (`Token.spelling`), and the end of the source has
none.

Every kind has a name in capitals (`Token.Kind.name`), in which diagnostics are
phrased. A token is shown as that name followed by what it was written as
(`Token.render`).
-/

namespace Monkey

/-- A word of the source. -/
inductive Token where
  /-- A part of the source that is no word: a stray character, or digits that
      make a number out of range. -/
  | illegal (text : String)
  /-- The end of the source. -/
  | eof
  /-- A name that is no keyword. -/
  | ident (name : String)
  /-- A number. -/
  | int (n : Nat)
  /-- A text between quotes. -/
  | str (text : String)
  | assign
  | plus
  | minus
  | bang
  | asterisk
  | slash
  | lt
  | gt
  | eq
  | ne
  | lparen
  | rparen
  | lbrace
  | rbrace
  | lbracket
  | rbracket
  | comma
  | semicolon
  | colon
  | kwFn
  | kwLet
  | kwIf
  | kwElse
  | kwTrue
  | kwFalse
  | kwReturn
  deriving DecidableEq, Repr

namespace Token

/-- The kind of a token: the token without what it carries. -/
inductive Kind where
  | illegal | eof | ident | int | str
  | assign | plus | minus | bang | asterisk | slash | lt | gt | eq | ne
  | lparen | rparen | lbrace | rbrace | lbracket | rbracket | comma | semicolon | colon
  | kwFn | kwLet | kwIf | kwElse | kwTrue | kwFalse | kwReturn
  deriving DecidableEq, Repr

/-- The name of a kind, as diagnostics show it. -/
def Kind.name : Kind → String
  | illegal => "ILLEGAL"
  | eof => "EOF"
  | ident => "IDENT"
  | int => "INT"
  | str => "STRING"
  | assign => "ASSIGN"
  | plus => "PLUS"
  | minus => "MINUS"
  | bang => "BANG"
  | asterisk => "ASTERISK"
  | slash => "SLASH"
  | lt => "LT"
  | gt => "GT"
  | eq => "EQ"
  | ne => "NE"
  | lparen => "LPAREN"
  | rparen => "RPAREN"
  | lbrace => "LBRACE"
  | rbrace => "RBRACE"
  | lbracket => "LBRACKET"
  | rbracket => "RBRACKET"
  | comma => "COMMA"
  | semicolon => "SEMICOLON"
  | colon => "COLON"
  | kwFn => "FUNCTION"
  | kwLet => "LET"
  | kwIf => "IF"
  | kwElse => "ELSE"
  | kwTrue => "TRUE"
  | kwFalse => "FALSE"
  | kwReturn => "RETURN"

/-- The kind of a token. -/
def kind : Token → Kind
  | illegal _ => .illegal
  | eof => .eof
  | ident _ => .ident
  | int _ => .int
  | str _ => .str
  | assign => .assign
  | plus => .plus
  | minus => .minus
  | bang => .bang
  | asterisk => .asterisk
  | slash => .slash
  | lt => .lt
  | gt => .gt
  | eq => .eq
  | ne => .ne
  | lparen => .lparen
  | rparen => .rparen
  | lbrace => .lbrace
  | rbrace => .rbrace
  | lbracket => .lbracket
  | rbracket => .rbracket
  | comma => .comma
  | semicolon => .semicolon
  | colon => .colon
  | kwFn => .kwFn
  | kwLet => .kwLet
  | kwIf => .kwIf
  | kwElse => .kwElse
  | kwTrue => .kwTrue
  | kwFalse => .kwFalse
  | kwReturn => .kwReturn

/-- What the token carries, or else how its kind is always written. The quotes
    of a text are left out; the end of the source is written as nothing. -/
def spelling : Token → String
  | illegal text => text
  | eof => ""
  | ident name => name
  | int n => toString n
  | str text => text
  | assign => "="
  | plus => "+"
  | minus => "-"
  | bang => "!"
  | asterisk => "*"
  | slash => "/"
  | lt => "<"
  | gt => ">"
  | eq => "=="
  | ne => "!="
  | lparen => "("
  | rparen => ")"
  | lbrace => "\x7b"
  | rbrace => "\x7d"
  | lbracket => "["
  | rbracket => "]"
  | comma => ","
  | semicolon => ";"
  | colon => ":"
  | kwFn => "fn"
  | kwLet => "let"
  | kwIf => "if"
  | kwElse => "else"
  | kwTrue => "true"
  | kwFalse => "false"
  | kwReturn => "return"

/-- A token as diagnostics show it: the name of its kind and its spelling, or the
    name alone where the spelling is empty. -/
def render (t : Token) : String :=
  if t.spelling.isEmpty then t.kind.name else t.kind.name ++ " " ++ t.spelling

/-- The keywords. -/
def keywords : List Token :=
  [kwFn, kwLet, kwIf, kwElse, kwTrue, kwFalse, kwReturn]

/-- The token of a word: the keyword spelled so, or else a name. -/
def ofWord (word : String) : Token :=
  (keywords.find? fun t => t.spelling == word).getD (.ident word)

end Token

end Monkey
