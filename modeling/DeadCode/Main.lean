import DeadCode.CommandLine
import DeadCode.Snapshot

/-! # The program

The program does what its arguments say in the current directory. For an analysis it reads a
snapshot of the files from standard input, and it writes the graph it was asked for to disk. -/

namespace DeadCode.Main

/-- All lines that are left in a stream, after the given text. -/
partial def readAll (stream : IO.FS.Stream) (text : String) : IO String := do
  let line ← stream.getLine
  if line.isEmpty then return text else readAll stream (text ++ line)

/-- Prints the output of a run, writes its file, and gives the exit code. -/
def finish (outcome : Outcome) : IO UInt32 := do
  match outcome.written with
  | none => pure ()
  | some (path, text) => IO.FS.writeFile path.text text
  IO.print outcome.output
  return outcome.exitCode.toUInt32

/-- The files a command works on. -/
def filesFor (directory : Path) : Command → IO (Option FileTree)
  | .analyze _ => do return FileTree.parse? directory (← readAll (← IO.getStdin) "")
  | _ => return some {}

end DeadCode.Main

open DeadCode in
/-- Runs the program. -/
def main (arguments : List String) : IO UInt32 := do
  let directory : Path := ⟨(← IO.currentDir).toString⟩
  match CommandLine.parse arguments with
  | .error _ => return 2
  | .ok command =>
    match ← Main.filesFor directory command with
    | some files => Main.finish (command.run files directory)
    | none =>
      IO.eprintln "The snapshot on standard input cannot be read."
      return 1
