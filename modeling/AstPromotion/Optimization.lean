import AstPromotion.Fixpoint
import AstPromotion.Validation

/-! # Optimization

The two phases one after the other, and then validation. Whatever the outcome,
the arena stays as the passes left it, and every step is on record.
-/

namespace AstPromotion

/-- How to optimize: the most passes a phase may make, if there is a limit, and whether to refuse
trees with leftovers. -/
structure Config where
  maxPasses : Option Nat := none
  validate : Bool := true
deriving DecidableEq, Repr

/-- What both phases did. -/
structure Report where
  normalization : Stats
  promotion : Stats
deriving DecidableEq, Repr

/-- A step worth recording. -/
inductive Record
  | started (phase : Phase)
  | rewrote (phase : Phase) (event : Event)
  | settled (phase : Phase) (stats : Stats)
  | compiled (file : String) (report : Report)
deriving DecidableEq, Repr

namespace Record

/-- Single rewrites are for tracing, all else for debugging. -/
def level : Record → String
  | rewrote _ _ => "TRACE"
  | _ => "DEBUG"

def text : Record → String
  | started .normalization => "optimizing program structure"
  | started .promotion => "generating abstract syntax tree groupings"
  | rewrote phase event =>
    "[" ++ phase.label ++ "] " ++ event.rule ++ ": " ++ event.subject.name ++
      match event.change with
      | .inPlace => " updated in place"
      | .became kind => " -> " ++ kind.name
      | .removed => " removed"
  | settled phase stats =>
    phase.label ++ " phase settled after " ++ toString stats.passes ++ " passes (" ++
      toString stats.rewrites ++ " rewrites)"
  | compiled file report =>
    file ++ ": structure settled in " ++ toString report.normalization.passes ++
      " passes, grouping in " ++ toString report.promotion.passes

end Record

/-- The outcome of an operation on an arena, the arena after it, and the record of its steps. -/
structure Attempt (α : Type) where
  outcome : Except Failure α
  arena : Arena
  log : List Record

/-- The other operation after this one, if this one succeeded. -/
def Attempt.andThen {α β : Type} (attempt : Attempt α) (next : α → Arena → Attempt β) : Attempt β :=
  match attempt.outcome with
  | .error failure => { attempt with outcome := .error failure }
  | .ok result =>
    let second := next result attempt.arena
    { second with log := attempt.log ++ second.log }

namespace Arena

/-- Refuses a root that is not a program. -/
def ensureProgram (arena : Arena) (root : Id) : Except Failure Unit :=
  if arena.kind root = .group .program then .ok () else .error (.notAProgram (arena.kind root))

/-- Runs a phase until it settles or has used up its passes. -/
def runPhase (arena : Arena) (config : Config) (phase : Phase) (root : Id) : Attempt Stats :=
  match arena.ensureProgram root with
  | .error failure => { outcome := .error failure, arena, log := [] }
  | .ok () =>
    let run := arena.settle phase root (config.maxPasses.getD arena.patience)
    let rewrites := run.events.map (.rewrote phase)
    if run.settled then
      { outcome := .ok run.stats
        arena := run.arena
        log := rewrites ++ [.settled phase run.stats] }
    else
      { outcome := .error <| match config.maxPasses with
          | some _ => .passLimit phase run.passes
          | none => .endless phase
        arena := run.arena
        log := rewrites }

/-- `runPhase` with a record of its start. -/
def enterPhase (arena : Arena) (config : Config) (phase : Phase) (root : Id) : Attempt Stats :=
  let attempt := arena.runPhase config phase root
  { attempt with log := .started phase :: attempt.log }

/-- Normalizes and promotes the tree below a program, then validates it if asked to. -/
def optimize (arena : Arena) (root : Id) (config : Config := {}) : Attempt Report :=
  match arena.ensureProgram root with
  | .error failure => { outcome := .error failure, arena, log := [] }
  | .ok () =>
    (arena.enterPhase config .normalization root).andThen fun normalization arena =>
      (arena.enterPhase config .promotion root).andThen fun promotion arena =>
        { outcome := do
            if config.validate then arena.validate root
            return { normalization, promotion }
          arena
          log := [] }

end Arena

end AstPromotion
