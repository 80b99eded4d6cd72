import AstPromotion.Arena

/-! # Sketches

A sketch is the shallow tree that a program is handed over as: groups that name
their kind, and tokens. Planting it in an arena gives every node an id, the
children of a group before the group itself.
-/

namespace AstPromotion

/-- A leaf of a sketch, as it is written. -/
inductive Token
  | string (text : String)
  | number (text : String)
  | word (text : String)
  | mark (sign : Mark)
deriving DecidableEq, Repr

namespace Token

/-- The words that introduce or join constructs. -/
def keywords : List String :=
  ["let", "func", "class", "if", "else", "while", "return"]

/-- What a word is; words that are not reserved are identifiers. -/
def wordKind (word : String) : LeafKind :=
  if word == "true" || word == "false" then .literal .boolean
  else if keywords.contains word then .keyword
  else .literal .identifier

def kind : Token → LeafKind
  | string _ => .literal .string
  | number _ => .literal .numeric
  | word text => wordKind text
  | mark sign => .mark sign

/-- The text a leaf starts out with; a string's is without its quotes. -/
def raw : Token → String
  | string text | number text | word text => text
  | mark sign => sign.spelling

end Token

/-- A tree of groups and tokens. -/
inductive Sketch
  | leaf (token : Token)
  | group (kind : GroupKind) (items : List Sketch)
deriving Repr

/-- The heading of a group that was read from a file. Programs read are to be executed. -/
def GroupKind.heading (file : String) : GroupKind → Heading
  | .provisional grouping => .provisional grouping
  | .block => .block
  | .program => .program file true
  | .argumentList => .argumentList
  | .expressionList => .expressionList

namespace Sketch

mutual

/-- Allocates the nodes of a sketch, its root last. -/
def plant (file : String) : Sketch → Arena → Id × Arena
  | leaf token, arena => arena.alloc (.leaf token.kind (.raw token.raw))
  | group kind items, arena =>
    let (children, arena) := plantEach file items arena
    arena.promote (.group (kind.heading file) children)

/-- Plants sketches from left to right. -/
def plantEach (file : String) : List Sketch → Arena → List Id × Arena
  | [], arena => ([], arena)
  | item :: rest, arena =>
    let (id, arena) := plant file item arena
    let (ids, arena) := plantEach file rest arena
    (id :: ids, arena)

end

end Sketch

end AstPromotion
