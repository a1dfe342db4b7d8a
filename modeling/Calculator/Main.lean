import Calculator.CommandLine

/-!
# The program

Reads the arguments, reads the file they name if they name one, prints what the command line
answers, and exits with its code.
-/

namespace Calculator.CommandLine

/-- Read a file, and say in the terms of the command line why it cannot be read. -/
def readFile (path : String) : IO (Except ReadFailure ByteArray) := do
  try
    return .ok (← IO.FS.readBinFile path)
  catch
    | .noFileOrDirectory .. => return .error .notFound
    | .inappropriateType _ 21 _ => return .error .isDirectory
    | error => return .error (.other error.toString)

end Calculator.CommandLine

open Calculator.CommandLine in
/-- Answer the arguments on the standard streams. -/
def main (args : List String) : IO UInt32 := do
  let answer ← outcome readFile args
  IO.print answer.stdout
  IO.eprint answer.stderr
  return answer.code.toUInt32
