import Monkey.Command

/-!
# The program

Reads the arguments, the script or the lines, and writes what the library makes of
them. A dialogue answers each line as soon as it is read.
-/

namespace Monkey

/-- How deep calls may be nested: deeper than any machine can go. -/
def maxDepth : Nat := 1000000000

/-- The bytes in a file, or why they could not be read. -/
def readScript (file : String) : IO (Except Command.ReadError (List UInt8)) := do
  try
    return .ok (← IO.FS.readBinFile file).toList
  catch
    | .noFileOrDirectory _ _ _ => return .error (.refused 2 "No such file or directory")
    | .permissionDenied _ _ _ => return .error (.refused 13 "Permission denied")
    | .inappropriateType _ 21 _ => return .error (.refused 21 "Is a directory")
    | .inappropriateType _ _ _ => return .error (.refused 20 "Not a directory")
    | e => return .error (.refused 5 e.toString)

/-- The bytes up to the end of the line, or of the input, that comes next. -/
partial def readLine (input : IO.FS.Stream) (line : Array UInt8) : IO (List UInt8) := do
  match (← input.read 1).toList with
  | [b] => if b = Text.newline then return (line.push b).toList else readLine input (line.push b)
  | _ => return line.toList

/-- Writes a report, and gives its exit status. -/
def deliver (report : Option Command.Report) : IO UInt32 := do
  match report with
  | some r =>
    (← IO.getStdout).putStr r.stdout
    (← IO.getStderr).putStr r.stderr
    return r.exit.toUInt32
  | none =>
    (← IO.getStderr).putStr "calls are nested too deep\n"
    return 134

/-- Holds a dialogue from a state on. -/
partial def hold (mode : Repl.Mode) (scope : ScopeId) (s : State) : IO UInt32 := do
  let output ← IO.getStdout
  output.putStr Repl.prompt
  output.flush
  match Text.lines (← readLine (← IO.getStdin) #[]) with
  | [] => return 0
  | line :: _ =>
    match Text.decode? line with
    | none => deliver (some (Command.failure "" "REPL I/O failed" .notText))
    | some text =>
      match Repl.respond maxDepth mode scope text s with
      | none => deliver none
      | some (chunks, s) =>
        chunks.forM fun chunk => output.putStr chunk.text
        hold mode scope s

end Monkey

open Monkey in
/-- Does what the arguments ask for. -/
def main (args : List String) : IO UInt32 := do
  match Command.parse args with
  | none => deliver (some Command.usageReport)
  | some .version => deliver (some Command.versionReport)
  | some (.run file) => deliver (Command.runScript maxDepth file (← readScript file))
  | some (.repl mode) =>
    let (scope, s) := State.empty.newScope none
    hold mode scope s
