import Monkey.Eval
import Monkey.Expr.Render
import Monkey.Program.Parse

/-!
# Dialogues

A dialogue reads lines and answers each. Before every line, and before the end of
the input, it asks for one with a prompt. What it answers depends on its mode: the
tokens of the line, the program that it spells, or the value of that program. In
the last mode the names that a line binds are known to the lines after it. A line
with syntax errors is answered with a report of them and does nothing else.

The input is bytes. A line ends at a newline, and a carriage return right before it
belongs to the end; the last line may be without an end (`Text.lines`). What follows
the last newline is a line only if there is anything.

The transcript of a dialogue (`Repl.run`) holds what it wrote and what the
programs printed, in order. A line that is no text ends the dialogue.
-/

namespace Monkey

/-! ## Lines -/

namespace Text

/-- The byte that ends a line. -/
def newline : UInt8 := 10

/-- The byte that may stand before the end of a line. -/
def carriageReturn : UInt8 := 13

/-- The bytes without a carriage return at the end. -/
def dropCarriageReturn (bytes : List UInt8) : List UInt8 :=
  if bytes.getLast? = some carriageReturn then bytes.dropLast else bytes

/-- The lines of some bytes, without their ends. -/
def lines : List UInt8 → List (List UInt8)
  | [] => []
  | b :: bytes =>
    let line := (b :: bytes).takeWhile (· ≠ newline)
    let rest := (b :: bytes).dropWhile (· ≠ newline)
    if rest.isEmpty then [line] else dropCarriageReturn line :: lines rest.tail
termination_by bytes => bytes.length
decreasing_by
  have := (List.dropWhile_suffix (· ≠ newline) (l := b :: bytes)).length_le
  simp only [List.length_tail, List.length_cons] at this ⊢
  omega

/-- The text that bytes encode in UTF-8, if they encode one. -/
def decode? (bytes : List UInt8) : Option String :=
  String.fromUTF8? ⟨bytes.toArray⟩

end Text

namespace Repl

/-! ## Modes -/

/-- What a dialogue does with a line. -/
inductive Mode where
  /-- It answers with the value of the line. -/
  | eval
  /-- It answers with the rendered program of the line. -/
  | parse
  /-- It answers with the tokens of the line. -/
  | lex
  deriving DecidableEq, Repr

/-- The name of a mode. -/
def Mode.name : Mode → String
  | eval => "eval"
  | parse => "parse"
  | lex => "lex"

/-- All the modes. -/
def Mode.all : List Mode :=
  [eval, parse, lex]

/-! ## Answers -/

/-- What a dialogue writes before it reads a line. -/
def prompt : String := ">> "

/-- The head of a report of syntax errors. -/
def banner : String :=
  "            __,__\n" ++
  "   .--.  .-\"     \"-.  .--.\n" ++
  "  / .. \\/  .-. .-.  \\/ .. \\\n" ++
  " | |  '|  /   Y   \\  |'  | |\n" ++
  " | \\   \\  \\ 0 | 0 /  /   / |\n" ++
  "  \\ '- ,\\.-\"\"\"\"\"\"\"-./, -' /\n" ++
  "   ''-' /_   ^ ^   _\\ '-''\n" ++
  "       |  \\._   _./  |\n" ++
  "       \\   \\ '~' /   /\n" ++
  "        '._ '-=-' _.'\n" ++
  "           '-----'\n"

/-- The report of syntax errors: each on a line of its own, after a tab. -/
def errorReport (errors : List SyntaxError) : String :=
  banner ++ "\nWoops! We ran into some monkey business here!\n" ++
    String.join (errors.map fun e => "\t" ++ e.message ++ "\n")

/-- A part of a transcript. -/
inductive Chunk where
  /-- What the dialogue wrote. -/
  | reply (text : String)
  /-- What a program printed. -/
  | printed (text : String)
  deriving DecidableEq, Repr

/-- The text of a part, wherever it went. -/
def Chunk.text : Chunk → String
  | reply text => text
  | printed text => text

/-- The answer to a line, and the state after it; none if the evaluation nests
    calls deeper than `depth`. -/
def respond (depth : Nat) (mode : Mode) (scope : ScopeId) (line : String) (s : State) :
    Option (List Chunk × State) :=
  match mode with
  | .lex => some ((Token.ofString line).map fun t => .reply (t.render ++ "\n"), s)
  | .parse =>
    match Program.parse line with
    | .error errors => some ([.reply (errorReport errors)], s)
    | .ok p => some ([.reply (p.render ++ "\n")], s)
  | .eval =>
    match Program.parse line with
    | .error errors => some ([.reply (errorReport errors)], s)
    | .ok p =>
      let (outcome, s) := (p.eval depth scope).run s
      let (printed, s) := s.takePrinted
      outcome.toValue?.map fun v => ([.printed printed, .reply (v.inspect ++ "\n")], s)

/-! ## Transcripts -/

/-- How a dialogue ends. -/
inductive Ending where
  /-- There are no lines left. -/
  | endOfInput
  /-- The next line is no text. -/
  | notText
  /-- The next line nests calls too deep. -/
  | exhausted
  deriving DecidableEq, Repr

/-- A dialogue as it was held. -/
structure Transcript where
  /-- The answers to the lines, in order. -/
  answers : List (List Chunk)
  ending : Ending
  /-- The state that the dialogue ends in. -/
  state : State

/-- The dialogue over some lines. -/
def answerAll (depth : Nat) (mode : Mode) (scope : ScopeId) :
    List (List UInt8) → State → Transcript
  | [], s => ⟨[], .endOfInput, s⟩
  | line :: lines, s =>
    match Text.decode? line with
    | none => ⟨[], .notText, s⟩
    | some text =>
      match respond depth mode scope text s with
      | none => ⟨[], .exhausted, s⟩
      | some (answer, s) =>
        let others := answerAll depth mode scope lines s
        { others with answers := answer :: others.answers }

/-- The dialogue over some input, in a new scope. -/
def run (depth : Nat) (mode : Mode) (input : List UInt8) : Transcript :=
  let (scope, s) := State.empty.newScope none
  answerAll depth mode scope (Text.lines input) s

namespace Transcript

/-- All that was said, in order: a prompt before every answer, and one that is left
    without an answer. -/
def chunks (t : Transcript) : List Chunk :=
  t.answers.flatMap (.reply prompt :: ·) ++ [.reply prompt]

/-- The text of all that was said. -/
def text (t : Transcript) : String :=
  String.join (t.chunks.map Chunk.text)

/-- What the dialogue wrote. -/
def replies (t : Transcript) : String :=
  String.join (t.chunks.map fun
    | .reply text => text
    | .printed _ => "")

/-- What the programs printed. -/
def printed (t : Transcript) : String :=
  String.join (t.chunks.map fun
    | .reply _ => ""
    | .printed text => text)

end Transcript

end Repl

end Monkey
