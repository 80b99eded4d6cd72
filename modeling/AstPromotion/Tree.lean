/-! # Ordered trees

Finite trees with a label at every node and any number of children. Dumps and
the final check work on them, by recursion on the tree.
-/

namespace AstPromotion

/-- An ordered tree. -/
inductive Tree (α : Type)
  | node (label : α) (children : List (Tree α))
deriving Repr

namespace Tree

variable {α β : Type}

def label : Tree α → α
  | .node label _ => label

def children : Tree α → List (Tree α)
  | .node _ children => children

mutual

def map (f : α → β) : Tree α → Tree β
  | .node label children => .node (f label) (mapEach f children)

/-- `map` on every tree of a list. -/
def mapEach (f : α → β) : List (Tree α) → List (Tree β)
  | [] => []
  | tree :: rest => map f tree :: mapEach f rest

end

mutual

/-- The labels, each before those below it and those to its right. -/
def preorder : Tree α → List α
  | .node label children => label :: preorderEach children

/-- `preorder` of the trees of a list, one after another. -/
def preorderEach : List (Tree α) → List α
  | [] => []
  | tree :: rest => preorder tree ++ preorderEach rest

end

/-- The number of nodes. -/
def size (tree : Tree α) : Nat :=
  tree.preorder.length

theorem mapEach_eq_map (f : α → β) (trees : List (Tree α)) : mapEach f trees = trees.map (map f) := by
  induction trees with
  | nil => rfl
  | cons tree rest ih => simp only [mapEach, ih, List.map_cons]

theorem map_node (f : α → β) (label : α) (children : List (Tree α)) :
    (node label children).map f = node (f label) (children.map (map f)) := by
  rw [map, mapEach_eq_map]

theorem preorderEach_eq_flatMap (trees : List (Tree α)) :
    preorderEach trees = trees.flatMap preorder := by
  induction trees with
  | nil => rfl
  | cons tree rest ih => simp only [preorderEach, ih, List.flatMap_cons]

theorem preorder_node (label : α) (children : List (Tree α)) :
    (node label children).preorder = label :: children.flatMap preorder := by
  rw [preorder, preorderEach_eq_flatMap]

end Tree

end AstPromotion
