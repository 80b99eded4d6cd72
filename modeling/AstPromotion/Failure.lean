import AstPromotion.Phase

/-! # Failures of optimization

Each way in which a tree can be refused is a cause with its data; the wording is
in one place.
-/

namespace AstPromotion

/-- Child positions from the root to a node. -/
structure Path where
  positions : List Nat := []
deriving DecidableEq, Repr

namespace Path

def child (path : Path) (position : Nat) : Path :=
  ⟨path.positions ++ [position]⟩

/-- Every position after a slash; the root itself is a lone slash. -/
def text (path : Path) : String :=
  match path.positions with
  | [] => "/"
  | positions => String.join (positions.map fun position => "/" ++ toString position)

end Path

/-- Why a node cannot be handed to the next stage. -/
inductive Reason
  | provisional
  | punctuation
  | keyword
  | operator
  | rawLiteral
deriving DecidableEq, Repr

def Reason.text : Reason → String
  | .provisional => "provisional grouping was never promoted"
  | .punctuation => "stray punctuation"
  | .keyword => "keyword outside any construct"
  | .operator => "operator outside any expression"
  | .rawLiteral => "literal payload was never coerced"

/-- A node that cannot be handed to the next stage, and where it is. -/
structure Leftover where
  kind : Kind
  path : Path
  reason : Reason
deriving DecidableEq, Repr

/-- Why a tree was not optimized. -/
inductive Failure
  | notAProgram (found : Kind)
  | unreduced (leftover : Leftover)
  | passLimit (phase : Phase) (passes : Nat)
  /-- The phase rewrites forever; only a run without a pass limit can end so. -/
  | endless (phase : Phase)
deriving DecidableEq, Repr

def Failure.message : Failure → String
  | .notAProgram found => s!"not a Program (found {found.name})"
  | .unreduced leftover =>
    "unreduced construct " ++ leftover.kind.name ++ " at " ++ leftover.path.text ++ ": " ++
      leftover.reason.text
  | .passLimit phase passes =>
    phase.label ++ " phase did not settle within " ++ toString passes ++ " passes"
  | .endless phase => phase.label ++ " phase never settles"

end AstPromotion
