import AstPromotion.Arena
import AstPromotion.Phase

/-! # Rewriting one node

A rewrite finds the first rule of a phase that matches a node and carries its
edit out on the arena. The holder of the node is not touched: what becomes of
the node is returned, for the holder's visit to write back.
-/

namespace AstPromotion

/-- What now stands where a rewritten node stood. -/
inductive Rewrite
  | unchanged
  | remove
  | replace (replacement : Id)
deriving DecidableEq, Repr

/-- A rule that matched, and its result. -/
structure Firing where
  rule : String
  rewrite : Rewrite
deriving DecidableEq, Repr

namespace Arena

/-- Carries out an edit planned for `subject`. A node that is built counts as timed from then on,
though the library does not look at a clock. Which node that is can be told from its id as well: the
node that a rule of promotion returns is new if and only if the rule builds one, by
`Arena.size_le_iff_of_rewrite`. -/
def enact (arena : Arena) (subject : Id) : Edit Id → Rewrite × Arena
  | .coerce value =>
    let coerced := match arena.form subject with
      | .leaf kind _ => .leaf kind value
      | form => form
    (.unchanged, arena.setForm subject coerced)
  | .lift child => (.replace child, arena)
  | .remove => (.remove, arena)
  | .build form relisted =>
    let arena := match relisted with
      | some (group, items) => arena.setForm group ((arena.form group).mapItems fun _ => items)
      | none => arena
    let (id, arena) := arena.promote form
    (.replace id, arena.setBuildTime id 0)

/-- Applies the first matching rule of a phase to a node. Normalization repairs the parent
references of the node's children first, whether or not a rule matches. -/
def rewrite (arena : Arena) (phase : Phase) (subject : Id) : Option Firing × Arena :=
  let arena := match phase with
    | .normalization => arena.adopt subject
    | .promotion => arena
  match phase.catalogue.plan? arena.form subject with
  | none => (none, arena)
  | some (rule, edit) =>
    let (rewrite, arena) := arena.enact subject edit
    (some { rule, rewrite }, arena)

end Arena

end AstPromotion
