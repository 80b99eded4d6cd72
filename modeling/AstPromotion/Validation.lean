import AstPromotion.Arena
import AstPromotion.Failure

/-! # Validation

After both phases the tree may hold containers, constructs and read literals,
and operators where a construct holds them. The first node in preorder that is
anything else is reported with its path.
-/

namespace AstPromotion

/-- Constructs that hold their operator as a child. -/
def Kind.holdsOperator : Kind → Bool
  | .construct .unaryExpression | .construct .binaryExpression
  | .construct .comparisonExpression => true
  | _ => false

/-- Why a node cannot stand below a holder of the given kind, if it cannot; the root has no
holder. Every keyword should have been taken in by the construct that it introduces. -/
def Form.reason? {α : Type} (form : Form α) (holder : Option Kind) : Option Reason :=
  if form.hasRole .primitive then some .provisional
  else if form.hasRole .punctuation then some .punctuation
  else if form.hasRole .keyword then some .keyword
  else if form.hasRole .operator && !holder.any Kind.holdsOperator then some .operator
  else if form.hasRole .literalValue && form.value?.any Value.isRaw then some .rawLiteral
  else none

namespace Tree

variable {α β : Type}

mutual

/-- The first node in preorder that cannot stand where it does. -/
def leftover? (look : β → Form α) (holder : Option Kind) (path : Path) : Tree β → Option Leftover
  | .node label children =>
    let form := look label
    match form.reason? holder with
    | some reason => some { kind := form.kind, path, reason }
    | none => leftoverAmong? look form.kind path 0 children

/-- `leftover?` among the children from a position on. -/
def leftoverAmong? (look : β → Form α) (holder : Kind) (path : Path) (position : Nat) :
    List (Tree β) → Option Leftover
  | [] => none
  | child :: rest =>
    match leftover? look (some holder) (path.child position) child with
    | some leftover => some leftover
    | none => leftoverAmong? look holder path (position + 1) rest

end

end Tree

/-- Refuses a tree in which something is left over. -/
def Arena.validate (arena : Arena) (root : Id) : Except Failure Unit :=
  match (arena.tree root).leftover? arena.form none {} with
  | some leftover => .error (.unreduced leftover)
  | none => .ok ()

end AstPromotion
