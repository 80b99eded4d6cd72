import AstPromotion.Arena

/-! # Dumps

A tree is drawn one node per line, each line led by connectors that show which
node holds it. Payloads and build times are optional.
-/

namespace AstPromotion

namespace Tree

mutual

/-- The lines of a tree: the root's after `lead`, those below it after `indent`. -/
def linesFrom (lead indent : String) : Tree String → List String
  | .node label children => (lead ++ label) :: linesBelow indent children

/-- The lines of sibling trees. The last sibling is joined by a corner, the others by a tee whose
stem goes on beside everything below them. -/
def linesBelow (indent : String) : List (Tree String) → List String
  | [] => []
  | child :: rest =>
    let lines := match rest with
      | [] => linesFrom (indent ++ "└╴") (indent ++ "  ") child
      | _ :: _ => linesFrom (indent ++ "├╴") (indent ++ "│ ") child
    lines ++ linesBelow indent rest

end

/-- The drawing of a tree of texts, each line ended by a line feed. -/
def draw (tree : Tree String) : String :=
  String.join ((linesFrom "" "" tree).map (· ++ "\n"))

end Tree

/-- What a dump shows beside the kinds. -/
structure DumpOptions where
  showPayload : Bool := true
  showBuildTime : Bool := false
deriving DecidableEq, Repr

/-- A span of time in milliseconds with three places. Seconds are added up and scaled as binary64
numbers, each step rounded, and the result is written exactly. -/
def milliseconds (nanoseconds : Nat) : String :=
  let whole := Binary64.ofRatio false (nanoseconds / Nat.pow 10 9) 1
  let fraction := Binary64.ofRatio false (nanoseconds % Nat.pow 10 9) (Nat.pow 10 9)
  ((whole.addSize fraction).scaleSize 1000).threePlaces

/-- A node's line without connectors. Leaves show a payload, other nodes a build time. -/
def Node.line (options : DumpOptions) (node : Node) : String :=
  let time :=
    if options.showBuildTime && !node.form.hasRole .terminal then
      match node.buildTime with
      | some nanoseconds => " - BT: " ++ milliseconds nanoseconds ++ " ms"
      | none => ""
    else ""
  let payload :=
    if options.showPayload then
      match node.form.value? with
      | some value => " - " ++ value.display
      | none => ""
    else ""
  node.form.kind.name ++ time ++ payload

/-- The drawing of the tree below a node. -/
def Arena.dump (arena : Arena) (root : Id) (options : DumpOptions := {}) : String :=
  ((arena.tree root).map fun id => (arena.node id).line options).draw

end AstPromotion
