import Monkey.Repl
import Monkey.Text.Characters

/-!
# The command line

What the arguments of the program ask for (`Command.parse`), and what the program
then reports (`Command.runScript`, `Command.runDialogue`): an exit status and the
texts for its two outputs.

Options may stand before or after the words that they do not belong to, and `--`
ends them. The option `-v` may be given any number of times; how much is logged is
not part of a report.

A script whose syntax or evaluation is in error has an exit status of its own, and
so do a failure to read and a wrong usage.
-/

namespace Monkey

/-- What the arguments ask for. -/
inductive Command where
  /-- To evaluate the script in a file. -/
  | run (file : String)
  /-- To hold a dialogue. -/
  | repl (mode : Repl.Mode)
  /-- To show the version. -/
  | version
  deriving DecidableEq, Repr

namespace Command

/-! ## Arguments -/

/-- What a group of one-letter options, such as `-vv`, asks for. -/
inductive Group where
  /-- It has options that may stand anywhere and change no report. -/
  | verbose
  /-- It has the option for the version, after others that may stand anywhere. -/
  | version
  /-- It has an option that there is not. -/
  | unknown
  deriving DecidableEq, Repr

/-- Reads the letters of a group of options, as far as they matter. -/
def Group.ofLetters : List Char → Group
  | [] => verbose
  | 'v' :: letters => ofLetters letters
  | 'V' :: _ => version
  | _ :: _ => unknown

/-- What an argument is. -/
inductive Arg where
  /-- `--` -/
  | endOfOptions
  /-- An option that starts with two dashes. -/
  | long (option : String)
  /-- The letters after a single dash. -/
  | short (letters : List Char)
  /-- Anything else; a dash alone is no option. -/
  | word (text : String)

/-- Tells what an argument is. -/
def Arg.ofString (arg : String) : Arg :=
  match arg.toList with
  | ['-', '-'] => endOfOptions
  | '-' :: '-' :: option => long (String.ofList option)
  | '-' :: c :: letters => short (c :: letters)
  | _ => word arg

/-- The file to run, if the words name exactly one. A file name is not empty. -/
def fileOfWords : List String → Option Command
  | [file] => if file.isEmpty then none else some (.run file)
  | _ => none

/-- Reads the arguments after `run`, given the words among those before. -/
def parseRun (words : List String) : List String → Option Command
  | [] => fileOfWords words
  | arg :: args =>
    match Arg.ofString arg with
    | .endOfOptions => fileOfWords (words ++ args)
    | .long option => if option = "verbose" then parseRun words args else none
    | .short letters =>
      if Group.ofLetters letters = .verbose then parseRun words args else none
    | .word text => parseRun (words ++ [text]) args

/-- The mode of a name. -/
def modeOfName? (name : String) : Option Repl.Mode :=
  Repl.Mode.all.find? fun mode => mode.name == name

/-- Reads the arguments after `repl`, given the mode that those before ask for, if
    they do. A mode is asked for at most once. -/
def parseRepl (mode? : Option Repl.Mode) : List String → Option Command
  | [] => some (.repl (mode?.getD .eval))
  | "--mode" :: name :: args =>
    match mode?, modeOfName? name with
    | none, some mode => parseRepl (some mode) args
    | _, _ => none
  | arg :: args =>
    match Arg.ofString arg with
    | .endOfOptions => if args.isEmpty then some (.repl (mode?.getD .eval)) else none
    | .long option =>
      if option = "verbose" then parseRepl mode? args
      else match mode?, Repl.Mode.all.find? fun mode => "mode=" ++ mode.name == option with
        | none, some mode => parseRepl (some mode) args
        | _, _ => none
    | .short letters =>
      if Group.ofLetters letters = .verbose then parseRepl mode? args else none
    | .word _ => none

/-- Reads the arguments; none if they are wrong usage. They are read in order: what
    follows the option for the version does not matter. -/
def parse : List String → Option Command
  | [] => some (.repl .eval)
  | "run" :: args => parseRun [] args
  | "repl" :: args => parseRepl none args
  | arg :: args =>
    match Arg.ofString arg with
    | .endOfOptions => if args.isEmpty then some (.repl .eval) else none
    | .long option =>
      if option = "verbose" then parse args
      else if option = "version" then some .version
      else none
    | .short letters =>
      match Group.ofLetters letters with
      | .verbose => parse args
      | .version => some .version
      | .unknown => none
    | .word _ => none

/-! ## Reports -/

/-- What the program reports in the end. -/
structure Report where
  exit : UInt8
  stdout : String
  stderr : String
  deriving DecidableEq, Repr

/-- Why some input could not be read. -/
inductive ReadError where
  /-- The input is no text. -/
  | notText
  /-- The system refused, with a number and a reason. -/
  | refused (number : Nat) (reason : String)
  deriving DecidableEq, Repr

/-- The wording of a failure to read. -/
def ReadError.message : ReadError → String
  | notText => "stream did not contain valid UTF-8"
  | refused number reason => reason ++ " (os error " ++ number.repr ++ ")"

/-- The report of a task that could not be done because of a failure to read. -/
def failure (stdout task : String) (cause : ReadError) : Report :=
  ⟨1, stdout, "Error: " ++ task ++ "\n\nCaused by:\n    " ++ cause.message ++ "\n"⟩

/-- The name and the version of the program. -/
def versionReport : Report := ⟨0, "bellamy 0.1.0\n", ""⟩

/-- The report of a wrong usage. -/
def usageReport : Report :=
  ⟨2, "", "usage: bellamy [-v]... [run FILE | repl [--mode eval|parse|lex]]\n"⟩

/-- Runs a script: none if it nests calls deeper than `depth`. Its syntax errors are
    reported all, each on a line; a script that is handed back as an error has failed. -/
def runSource (depth : Nat) (source : String) : Option Report :=
  match Program.parse source with
  | .error errors => some ⟨65, "", String.join (errors.map fun e => e.message ++ "\n")⟩
  | .ok p =>
    let (scope, s) := State.empty.newScope none
    let (outcome, s) := (p.eval depth scope).run s
    outcome.toValue?.map fun
      | .error message => ⟨70, s.printed, "ERROR: " ++ message ++ "\n"⟩
      | v => ⟨0, s.printed ++ v.inspect ++ "\n", ""⟩

/-- Runs the script in a file, given the bytes in it. -/
def runScript (depth : Nat) (file : String) (contents : Except ReadError (List UInt8)) :
    Option Report :=
  let task := "Failed to read file " ++ Text.quoted file
  match contents with
  | .error cause => some (failure "" task cause)
  | .ok bytes =>
    match Text.decode? bytes with
    | none => some (failure "" task .notText)
    | some source => runSource depth source

/-- Holds a dialogue over some input: none if a line nests calls deeper than
    `depth`. -/
def runDialogue (depth : Nat) (mode : Repl.Mode) (input : List UInt8) : Option Report :=
  let transcript := Repl.run depth mode input
  match transcript.ending with
  | .endOfInput => some ⟨0, transcript.text, ""⟩
  | .notText => some (failure transcript.text "REPL I/O failed" .notText)
  | .exhausted => none

end Command

end Monkey
