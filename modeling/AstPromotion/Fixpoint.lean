import AstPromotion.Rewriting

/-! # Running a phase to its fixpoint

A pass visits every node below the root and records each rewrite it makes. The
phase has settled once a pass records none. What a pass puts in a node's place
is offered to the rules in the next pass only.
-/

namespace AstPromotion

/-- What a rewrite made of its subject. -/
inductive Change
  | inPlace
  | became (kind : Kind)
  | removed
deriving DecidableEq, Repr

/-- A rewrite that was made: the rule, the kind of its subject, and the change. -/
structure Event where
  rule : String
  subject : Kind
  change : Change
deriving DecidableEq, Repr

/-- The result of visiting a node: what stands in its place, if anything does, and the rewrites
made on the way. -/
structure Visit where
  standing : Option Id
  arena : Arena
  events : List Event

/-- The results of visiting nodes one after another. -/
structure Visits where
  standing : List (Option Id)
  arena : Arena
  events : List Event

namespace Arena

/-- Offers a node to the rules of a phase. A replacement takes over the parent reference that the
node had when its visit began. -/
def offer (arena : Arena) (phase : Phase) (subject : Id) (parent : Option Id) : Visit :=
  match arena.rewrite phase subject with
  | (none, arena) => { standing := some subject, arena, events := [] }
  | (some { rule, rewrite }, arena) =>
    let event := fun change => [{ rule, subject := arena.kind subject, change }]
    match rewrite with
    | .unchanged => { standing := some subject, arena, events := event .inPlace }
    | .remove => { standing := none, arena, events := event .removed }
    | .replace replacement =>
      { standing := some replacement
        arena := arena.setParent replacement parent
        events := event (.became (arena.kind replacement)) }

/-- Visits nodes from left to right. -/
def visitEach (visit : Id → Arena → Visit) (arena : Arena) : List Id → Visits
  | [] => { standing := [], arena, events := [] }
  | id :: rest =>
    let first := visit id arena
    let others := first.arena.visitEach visit rest
    { standing := first.standing :: others.standing
      arena := others.arena
      events := first.events ++ others.events }

/-- Visits the children of a node, writes back what became of them and adopts them. -/
def visitChildren (visit : Id → Arena → Visit) (arena : Arena) (id : Id) : Visit :=
  let visits := arena.visitEach visit (arena.children id)
  let refilled := visits.arena.setForm id ((visits.arena.form id).refill visits.standing)
  { standing := some id, arena := refilled.adopt id, events := visits.events }

/-- Visits a node and what is below it, down to a given depth. Normalization offers the node first
and goes on with the children of whatever then stands in its place; promotion offers it last. -/
def visit (phase : Phase) : Nat → Id → Arena → Visit
  | 0, id, arena => { standing := some id, arena, events := [] }
  | depth + 1, id, arena =>
    let parent := (arena.node id).parent
    match phase with
    | .normalization =>
      let offered := arena.offer .normalization id parent
      match offered.standing with
      | none => offered
      | some current =>
        let visited := offered.arena.visitChildren (visit .normalization depth) current
        { visited with events := offered.events ++ visited.events }
    | .promotion =>
      let visited := arena.visitChildren (visit .promotion depth) id
      let offered := visited.arena.offer .promotion id parent
      { offered with events := visited.events ++ offered.events }

/-- One pass over the tree below `root`, with the rewrites it made. Without cycles no path is
longer than the arena, so every node of the tree is visited. The root of a program matches no rule
and stays. -/
def pass (arena : Arena) (phase : Phase) (root : Id) : List Event × Arena :=
  let visited := visit phase arena.size root arena
  (visited.events, visited.arena)

end Arena

/-- What a phase did: the passes it made, the last and idle one included, and its rewrites. -/
structure Stats where
  passes : Nat
  rewrites : Nat
deriving DecidableEq, Repr

/-- A run of passes: whether the last one was idle, how many there were, and their rewrites. -/
structure Run where
  settled : Bool
  passes : Nat
  events : List Event
  arena : Arena

namespace Run

def stats (run : Run) : Stats :=
  { passes := run.passes, rewrites := run.events.length }

end Run

namespace Arena

/-- Makes passes until one is idle, but at most `limit`. -/
def settle (phase : Phase) (root : Id) : (limit : Nat) → Arena → Run
  | 0, arena => { settled := false, passes := 0, events := [], arena }
  | limit + 1, arena =>
    let (events, arena) := arena.pass phase root
    if events.isEmpty then { settled := true, passes := 1, events := [], arena }
    else
      let rest := arena.settle phase root limit
      { rest with passes := rest.passes + 1, events := events ++ rest.events }

/-- More passes than a phase that settles ever makes: a pass at least halves every chain of
wrappers, and no chain is longer than the arena. -/
def patience (arena : Arena) : Nat :=
  arena.size + 4

end Arena

end AstPromotion
