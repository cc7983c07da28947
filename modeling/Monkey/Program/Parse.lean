import Monkey.Program.Precedence
import Monkey.Program.Reply
import Monkey.Token.Scan

/-!
# Parsing

Builds the program that a list of tokens spells. A statement that cannot be read
does not end the program: its error is recorded, and reading goes on right after the
tokens that it took. The end of the source stands after the last token, as often
as it is asked for.

* `Parse.expr` reads an expression: a *primary* and the *suffixes* that bind it
  stronger than its surroundings do.
* `Parse.block` reads the inside of a pair of braces, and `Parse.program` all the
  tokens.
* `Program.read` gives the program of a source text with its errors, and
  `Program.parse` the program if there are none.

Reading comes to an end as every part is read from fewer tokens, or from as many
by a function of a lower rank: suffixes and primaries, then expressions, then the
lists of expressions and statements, then blocks.
-/

namespace Monkey

namespace Parse

/-! ## Single tokens -/

/-- Takes the next token, which must be of the kind `k`. -/
def expect (k : Token.Kind) : (ts : List Token) → Reply Unit ts
  | [] => .fail (.unexpected k .eof) [] []
  | t :: ts =>
    if t.kind = k then (Reply.done () ts).cons t
    else .fail (.unexpected k t) (t :: ts) (t :: ts)

/-- Takes the next token, which must be a name. -/
def name : (ts : List Token) → Reply String ts
  | [] => .fail (.unexpected .ident .eof) [] []
  | .ident x :: ts => (Reply.done x ts).cons _
  | t :: ts => .fail (.unexpected .ident t) (t :: ts) (t :: ts)

/-- The tokens after a semicolon, if there is one. -/
def afterSemicolon : List Token → List Token
  | .semicolon :: ts => ts
  | ts => ts

/-- At most a semicolon is passed over. -/
theorem afterSemicolon_suffix (ts : List Token) : afterSemicolon ts <:+ ts := by
  unfold afterSemicolon
  split
  · exact List.suffix_cons _ _
  · exact List.suffix_rfl

/-- A whole statement, with the semicolon after it if there is one. -/
def finish (s : Stmt) (ts : List Token) : Reply Stmt ts :=
  (Reply.done s (afterSemicolon ts)).widen (afterSemicolon_suffix ts)

/-- The names of parameters with commas between them, up to the parenthesis that
    closes them. -/
def names : (ts : List Token) → Reply (List String) ts
  | [] => .fail (.unexpected .ident .eof) [] []
  | .ident x :: .comma :: ts => (((names ts).map (x :: ·)).cons _).cons _
  | .ident x :: ts => ((expect .rparen ts).map fun _ => [x]).cons _
  | t :: ts => .fail (.unexpected .ident t) (t :: ts) (t :: ts)

/-- The names of parameters, after the parenthesis that opens them. -/
def params : (ts : List Token) → Reply (List String) ts
  | .rparen :: ts => (Reply.done [] ts).cons _
  | ts => names ts

/-!
## Expressions and statements

Each part goes on with the tokens that the part before it left over; these are
always called `ts` again.
-/

mutual

/-- An expression whose suffixes all bind stronger than `p`. -/
def expr (p : Precedence) (ts : List Token) : Reply Expr ts.tail :=
  (primary ts).andThen fun e ts' _ => suffixes p e ts'
termination_by 4 * ts.length + 1
decreasing_by all_goals grind [List.IsSuffix.length_le]

/-- An expression without suffixes. -/
def primary : (ts : List Token) → Reply Expr ts.tail
  | [] => .fail (.noExpression .eof) [] []
  | .ident x :: ts => .done (.ident x) ts
  | .int n :: ts => .done (.int n) ts
  | .str s :: ts => .done (.str s) ts
  | .kwTrue :: ts => .done (.bool true) ts
  | .kwFalse :: ts => .done (.bool false) ts
  | .bang :: ts => ((expr .unary ts).map (.unary .not)).ofTail
  | .minus :: ts => ((expr .unary ts).map (.unary .negate)).ofTail
  | .lparen :: ts =>
    (expr .lowest ts).ofTail.andThen fun e ts _ => (expect .rparen ts).map fun _ => e
  | .lbracket :: ts => (exprs .rbracket ts).map .array
  | .lbrace :: ts => (pairs ts).map .hash
  | .kwIf :: ts =>
    (expect .lparen ts).andThen fun _ ts _ =>
    (expr .lowest ts).ofTail.andThen fun condition ts _ =>
    (expect .rparen ts).andThen fun _ ts _ =>
    (expect .lbrace ts).andThen fun _ ts _ =>
    (block ts).andThen fun yes ts _ =>
    (alternative ts).map fun no => .cond condition yes no
  | .kwFn :: ts =>
    (expect .lparen ts).andThen fun _ ts _ =>
    (params ts).andThen fun xs ts _ =>
    (expect .lbrace ts).andThen fun _ ts _ =>
    (block ts).map fun body => .function xs body
  | t :: ts => .fail (.noExpression t) (t :: ts) ts
termination_by ts => 4 * ts.length
decreasing_by all_goals grind [List.IsSuffix.length_le]

/-- The second block of a choice, if there is one. -/
def alternative : (ts : List Token) → Reply (Option (List Stmt)) ts
  | .kwElse :: ts =>
    Reply.cons _ <| (expect .lbrace ts).andThen fun _ ts _ => (block ts).map some
  | ts => .done none ts
termination_by ts => 4 * ts.length
decreasing_by all_goals grind [List.IsSuffix.length_le]

/-- What goes on the expression `left` and binds stronger than `p`. -/
def suffixes (p : Precedence) (left : Expr) : (ts : List Token) → Reply Expr ts
  | [] => .done left []
  | t :: ts =>
    match t.suffix? with
    | none => .done left (t :: ts)
    | some s =>
      if p < s.precedence then
        Reply.cons t <| match s with
          | .operator op =>
            (expr op.precedence ts).ofTail.andThen fun right ts _ =>
            suffixes p (.binary op left right) ts
          | .call =>
            (exprs .rparen ts).andThen fun args ts _ =>
            suffixes p (.call left args) ts
          | .index =>
            (expr .lowest ts).ofTail.andThen fun key ts _ =>
            (expect .rbracket ts).andThen fun _ ts _ =>
            suffixes p (.index left key) ts
      else .done left (t :: ts)
termination_by ts => 4 * ts.length
decreasing_by all_goals grind [List.IsSuffix.length_le]

/-- Expressions with commas between them, up to the token that closes them. -/
def exprs (close : Token.Kind) : (ts : List Token) → Reply (List Expr) ts
  | [] => exprs₁ close []
  | t :: ts => if t.kind = close then (Reply.done [] ts).cons t else exprs₁ close (t :: ts)
termination_by ts => 4 * ts.length + 3
decreasing_by all_goals grind [List.IsSuffix.length_le]

/-- At least one expression with commas between them, up to the token that closes
    them. -/
def exprs₁ (close : Token.Kind) (ts : List Token) : Reply (List Expr) ts :=
  (expr .lowest ts).ofTail.andThen fun e ts _ =>
    match ts with
    | .comma :: ts => ((exprs₁ close ts).map (e :: ·)).cons _
    | ts => (expect close ts).map fun _ => [e]
termination_by 4 * ts.length + 2
decreasing_by all_goals grind [List.IsSuffix.length_le]

/-- Pairs of a key and a value with commas between them, and maybe one after
    them, up to the brace that closes them. -/
def pairs : (ts : List Token) → Reply (List (Expr × Expr)) ts
  | .rbrace :: ts => (Reply.done [] ts).cons _
  | ts =>
    (expr .lowest ts).ofTail.andThen fun key ts _ =>
    (expect .colon ts).andThen fun _ ts _ =>
    (expr .lowest ts).ofTail.andThen fun value ts _ =>
      match ts with
      | .comma :: ts => ((pairs ts).map ((key, value) :: ·)).cons _
      | .rbrace :: ts => (Reply.done [(key, value)] ts).cons _
      | ts => (expect .comma ts).map fun _ => [(key, value)]
termination_by ts => 4 * ts.length + 2
decreasing_by all_goals grind [List.IsSuffix.length_le]

/-- Statements, up to the brace that closes the block. -/
def block : (ts : List Token) → Reply (List Stmt) ts
  | [] => .fail (.unexpected .rbrace .eof) [] []
  | .rbrace :: ts => (Reply.done [] ts).cons _
  | .semicolon :: ts => (block ts).cons _
  | t :: ts =>
    -- A statement takes a token even if it fails, so the block gets ahead.
    Reply.cons t <| (stmt (t :: ts)).recover.andThen fun s ts _ =>
    (block ts).map (s.toList ++ ·)
termination_by ts => 4 * ts.length + 3
decreasing_by all_goals grind [List.IsSuffix.length_le]

/-- A statement. Only here is one begun. -/
def stmt (ts : List Token) : Reply Stmt ts.tail :=
  Reply.begin ts <| match ts with
    | .kwLet :: ts =>
      (name ts).andThen fun x ts _ =>
      (expect .assign ts).andThen fun _ ts _ =>
      (expr .lowest ts).ofTail.andThen fun e ts _ => finish (.bind x e) ts
    | .kwReturn :: ts =>
      (expr .lowest ts).ofTail.andThen fun e ts _ => finish (.ret e) ts
    | ts => (expr .lowest ts).andThen fun e ts _ => finish (.expr e) ts
termination_by 4 * ts.length + 2
decreasing_by all_goals grind [List.IsSuffix.length_le]

end

/-! ## Programs -/

/-- A program, as far as it could be read, and what happened on the way. -/
structure Reading where
  /-- The statements that could be read. -/
  program : Program
  /-- What happened, in order. -/
  events : List Event

/-- The errors in what was left out, in the order in which they were found. -/
def Reading.errors (reading : Reading) : List SyntaxError :=
  (foundIn reading.events).map Prod.fst

/-- No error is found if none is found in the first statement and in the others. -/
theorem errors_append_eq_nil_iff {p : Program} {events : List Event} {others : Reading} :
    Reading.errors ⟨p, events ++ others.events⟩ = [] ↔
      foundIn events = [] ∧ others.errors = [] := by
  simp only [Reading.errors, foundIn_append, List.map_append, List.append_eq_nil_iff,
    List.map_eq_nil_iff]

/-- Reads all the tokens. -/
def program : List Token → Reading
  | [] => ⟨[], []⟩
  | .semicolon :: ts => program ts
  | t :: ts =>
    let first := stmt (t :: ts)
    let others := program first.rest
    ⟨first.result.toOption.toList ++ others.program, first.events ++ others.events⟩
termination_by ts => ts.length
decreasing_by
  · simp
  · exact Nat.lt_succ_of_le (stmt (t :: ts)).rest_suffix.length_le

end Parse

/-- Reads a source text as far as possible. -/
def Program.read (source : String) : Parse.Reading :=
  Parse.program (Token.ofString source)

/-- The program of a source text, or all its errors if there are any. -/
def Program.parse (source : String) : Except (List SyntaxError) Program :=
  let reading := Program.read source
  if reading.errors.isEmpty then .ok reading.program else .error reading.errors

/-- A source is parsed to what has been read of it if no error has been found. -/
theorem Program.parse_eq_ok_iff {source : String} {p : Program} :
    Program.parse source = .ok p ↔
      (Program.read source).errors = [] ∧ (Program.read source).program = p := by
  simp only [Program.parse, List.isEmpty_iff]
  split <;> simp_all

/-- Parsing a source fails with the errors that have been found, if there are any. -/
theorem Program.parse_eq_error_iff {source : String} {errors : List SyntaxError} :
    Program.parse source = .error errors ↔
      errors ≠ [] ∧ (Program.read source).errors = errors := by
  simp only [Program.parse, List.isEmpty_iff]
  split <;> grind

end Monkey
