import AstPromotion.CommandLine

/-! # The program

Reads the file that the command line names and prints the answer to it.
-/

namespace AstPromotion

/-- The bytes of a file on disk, or why there are none. -/
def readFile (path : String) : IO (Except ReadFailure ByteArray) := do
  try
    return .ok (← IO.FS.readBinFile path)
  catch
    | .noFileOrDirectory .. => return .error .missing
    | .inappropriateType _ 21 _ => return .error .isDirectory
    | .inappropriateType .. => return .error .notDirectory
    | .invalidArgument _ 36 _ => return .error .nameTooLong
    | error => return .error (.other (toString error))

end AstPromotion

def main (arguments : List String) : IO UInt32 := do
  let response ← AstPromotion.CommandLine.respond AstPromotion.readFile arguments
  IO.print response.stdout
  IO.eprint response.stderr
  return response.exit.toUInt32
