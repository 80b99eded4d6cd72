import AstPromotion.Dump
import AstPromotion.Optimization
import AstPromotion.Sketch.Reader

/-! # Compilation

From a file to the dump of the optimized program, with one error type for
everything that can go wrong on the way.
-/

namespace AstPromotion

/-- Why a file could not be read as text. -/
inductive ReadFailure
  | missing
  | isDirectory
  | notDirectory
  | nameTooLong
  | nulInName
  | notText
  | other (details : String)
deriving DecidableEq, Repr

def ReadFailure.text : ReadFailure → String
  | .missing => "No such file or directory (os error 2)"
  | .isDirectory => "Is a directory (os error 21)"
  | .notDirectory => "Not a directory (os error 20)"
  | .nameTooLong => "File name too long (os error 36)"
  | .nulInName => "file name contained an unexpected NUL byte"
  | .notText => "stream did not contain valid UTF-8"
  | .other details => details

/-- Why a file was not compiled. -/
inductive CompileError
  | unreadable (path : String) (cause : ReadFailure)
  | unnamed (path : String)
  | malformed (file : String) (cause : Sketch.ReadError)
  | refused (file : String) (cause : Failure)
deriving DecidableEq, Repr

def CompileError.message : CompileError → String
  | .unreadable path cause => "failed to read " ++ path ++ ": " ++ cause.text
  | .unnamed path => "invalid source file name: " ++ path
  | .malformed file cause => "failed to parse " ++ file ++ ": " ++ cause.message
  | .refused file cause => "failed to optimize " ++ file ++ ": " ++ cause.message

/-- Reads a sketch into a new arena; its root is the last node. -/
def parseSource (file source : String) : Except CompileError (Id × Arena) :=
  match Sketch.parse source with
  | .ok sketch => .ok (sketch.plant file {})
  | .error cause => .error (.malformed file cause)

/-- An optimized program: the arena it is in, its root, and what the phases did. -/
structure Optimized where
  arena : Arena
  root : Id
  report : Report

/-- Reads a sketch and optimizes it, with a record of the steps. -/
def optimizeSource (file source : String) (config : Config := {}) :
    Except CompileError Optimized × List Record :=
  match parseSource file source with
  | .error cause => (.error cause, [])
  | .ok (root, arena) =>
    let attempt := arena.optimize root config
    match attempt.outcome with
    | .ok report => (.ok { arena := attempt.arena, root, report }, attempt.log)
    | .error cause => (.error (.refused file cause), attempt.log)

/-- The last component of a path that is more than a dot, unless it leads upwards. -/
def fileName? (path : String) : Option String :=
  match (path.splitOn "/").reverse.dropWhile fun component => component == "" || component == "." with
  | name :: _ => if name == ".." then none else some name
  | [] => none

/-- The dump of the program in a file whose bytes, or the lack of them, are given. -/
def compile (path : String) (content : Except ReadFailure ByteArray) (config : Config := {})
    (options : DumpOptions := {}) : Except CompileError String × List Record :=
  let text := content.bind fun bytes =>
    match String.fromUTF8? bytes with
    | some text => .ok text
    | none => .error .notText
  match text, fileName? path with
  | .error cause, _ => (.error (.unreadable path cause), [])
  | .ok _, none => (.error (.unnamed path), [])
  | .ok source, some file =>
    match optimizeSource file source config with
    | (.ok program, log) =>
      (.ok (program.arena.dump program.root options), log ++ [.compiled file program.report])
    | (.error error, log) => (.error error, log)

end AstPromotion
