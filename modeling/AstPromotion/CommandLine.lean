import AstPromotion.Compilation

/-! # The command line

Arguments are taken from left to right, so the first fault or the first request
for help or the version decides. The answer is an exit code and two texts.
-/

namespace AstPromotion.CommandLine

/-- What a command line asks to compile, and how. -/
structure Invocation where
  file : Option String := none
  noPayload : Bool := false
  buildTime : Bool := false
  maxPasses : Option Nat := none
deriving DecidableEq, Repr

inductive Request
  | version
  | help
  | compile (file : String) (invocation : Invocation)
deriving DecidableEq, Repr

/-- Why a command line cannot be followed. -/
inductive UsageError
  | missingFile
  | emptyFile
  | unexpected (argument : String)
  | repeated (flag : String)
  | unwantedValue (flag : String)
  | missingValue (flag : String)
  | invalidValue (flag value : String)
deriving DecidableEq, Repr

def usage : String :=
  "Usage: saplingc [--nometa] [--build-time] [--max-passes N] FILE\n"

def help : String :=
  "Promotes a sketch of a flat parse tree into a typed AST and prints it\n\n" ++ usage ++
    "\nFILE              the sketch to read\n" ++
    "--nometa          leave leaf payloads out\n" ++
    "--build-time      show how long each promoted node took to build\n" ++
    "--max-passes N    give up when a phase has not settled after N passes\n" ++
    "-h, --help        show this help\n" ++
    "-V, --version     show the version\n"

def version : String :=
  "saplingc 0.1.0\n"

def UsageError.message : UsageError → String
  | missingFile => "no FILE was given"
  | emptyFile => "FILE is empty"
  | unexpected argument => "unexpected argument '" ++ argument ++ "'"
  | repeated flag => flag ++ " is given more than once"
  | unwantedValue flag => flag ++ " takes no value"
  | missingValue flag => flag ++ " needs a value"
  | invalidValue flag value => "invalid value '" ++ value ++ "' for " ++ flag

/-- A count of at most 64 bits: decimal digits after an optional plus. -/
def count? (text : String) : Option Nat :=
  let digits := match text.toList with
    | '+' :: rest => rest
    | rest => rest
  if digits.isEmpty || !digits.all Char.isDigit then none
  else
    let value := Binary64.digitsValue digits
    if value < Nat.pow 2 64 then some value else none

namespace Invocation

def addFile (invocation : Invocation) (file : String) : Except UsageError Invocation :=
  if file.isEmpty then .error .emptyFile
  else if invocation.file.isSome then .error (.unexpected file)
  else .ok { invocation with file := some file }

def addMaxPasses (invocation : Invocation) (value : String) : Except UsageError Invocation :=
  match count? value with
  | none => .error (.invalidValue "--max-passes" value)
  | some count =>
    if invocation.maxPasses.isSome then .error (.repeated "--max-passes")
    else .ok { invocation with maxPasses := some count }

def request (invocation : Invocation) : Except UsageError Request :=
  match invocation.file with
  | some file => .ok (.compile file invocation)
  | none => .error .missingFile

def config (invocation : Invocation) : Config :=
  { maxPasses := invocation.maxPasses }

def dumpOptions (invocation : Invocation) : DumpOptions :=
  { showPayload := !invocation.noPayload, showBuildTime := invocation.buildTime }

end Invocation

/-- Whether an argument is `flag` with a value attached by an equals sign, and the value. -/
def attached? (flag argument : String) : Option String :=
  let start := (flag ++ "=").toList
  if start.isPrefixOf argument.toList then some (String.ofList (argument.toList.drop start.length))
  else none

/-- Takes the arguments after those that made up the invocation so far. Letters behind one dash
are flags of their own, and the first of them decides. -/
def take (invocation : Invocation) : List String → Except UsageError Request
  | [] => invocation.request
  | "--" :: files => (files.foldlM Invocation.addFile invocation).bind Invocation.request
  | "--version" :: _ => .ok .version
  | "--help" :: _ => .ok .help
  | "--nometa" :: rest =>
    if invocation.noPayload then .error (.repeated "--nometa")
    else take { invocation with noPayload := true } rest
  | "--build-time" :: rest =>
    if invocation.buildTime then .error (.repeated "--build-time")
    else take { invocation with buildTime := true } rest
  | ["--max-passes"] => .error (.missingValue "--max-passes")
  | "--max-passes" :: value :: rest => do take (← invocation.addMaxPasses value) rest
  | argument :: rest => do
    if let some value := attached? "--max-passes" argument then
      take (← invocation.addMaxPasses value) rest
    else if let some flag := ["--nometa", "--build-time", "--version", "--help"].find?
        fun flag => (attached? flag argument).isSome then
      throw (.unwantedValue flag)
    else
      match argument.toList with
      | '-' :: 'V' :: _ => return .version
      | '-' :: 'h' :: _ => return .help
      | '-' :: _ :: _ => throw (.unexpected argument)
      | _ => take (← invocation.addFile argument) rest

/-- What a command line asks for. -/
def parse (arguments : List String) : Except UsageError Request :=
  take {} arguments

/-- The visible effects of a run. -/
structure Response where
  exit : Nat
  stdout : String := ""
  stderr : String := ""
deriving DecidableEq, Repr

/-- Answers a command line, reading files by `read`. -/
def respond {m : Type → Type} [Monad m] (read : String → m (Except ReadFailure ByteArray))
    (arguments : List String) : m Response :=
  match parse arguments with
  | .error error =>
    return { exit := 2, stderr := "error: " ++ error.message ++ "\n\n" ++ usage }
  | .ok .version => return { exit := 0, stdout := version }
  | .ok .help => return { exit := 0, stdout := help }
  | .ok (.compile file invocation) => do
    match (compile file (← read file) invocation.config invocation.dumpOptions).1 with
    | .ok dump => return { exit := 0, stdout := dump }
    | .error error => return { exit := 1, stderr := "failed to optimize:\n" ++ error.message ++ "\n" }

end AstPromotion.CommandLine
