/-
  The program itself: it reads the file that its arguments name, and writes what `respond` answers.
-/
import MiniLang.CommandLine

section

open MiniLang.CommandLine

/-- Reads a file from the disk. -/
def readSource (path : String) : IO (Except FileError ByteArray) := do
  try
    return .ok (← IO.FS.readBinFile path)
  catch
    | .inappropriateType .. => return .error .isDirectory
    | _ => return .error .notFound

/-- Writes an answer and gives the code that the program ends with. -/
def deliver : Response → IO UInt32
  | .exit code out err => do
    (← IO.getStdout).putStr out
    (← IO.getStderr).putStr err
    return code.toUInt32
  | .noEditor => do
    IO.eprintln noEditorMessage
    return 1
  | .unreadable error => do
    IO.eprintln <| match error with
      | .notFound => "No such file"
      | .isDirectory => "Is a directory"
      | .notText => "Not a text in UTF-8"
    return 1
  | .blankBudget => do
    IO.eprintln "The number of steps is blank"
    return 1
  | .oversizedNumber n => do
    IO.eprintln n.message
    return 1

def main (arguments : List String) : IO UInt32 := do
  deliver (← respond readSource arguments)

end
