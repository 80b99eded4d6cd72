import AstPromotion.Form
import AstPromotion.Tree

/-! # Arenas

Nodes live in an arena and refer to each other by id. Ids are handed out in
order and no node is ever freed, so an id stays valid and a discarded node keeps
its last form. Parent references are kept beside the forms and may be stale.
-/

namespace AstPromotion

/-- The position of a node in its arena. -/
abbrev Id := Nat

/-- A node: its form over ids, the holder it was last adopted by, and the time it took to build,
in nanoseconds, if a rule built it. -/
structure Node where
  form : Form Id
  parent : Option Id := none
  buildTime : Option Nat := none
deriving DecidableEq, Repr

instance : Inhabited Node := ⟨{ form := default }⟩

/-- All nodes allocated so far. -/
structure Arena where
  nodes : Array Node := #[]
deriving DecidableEq, Repr

namespace Arena

/-- The number of nodes, which is the id that the next one gets. -/
def size (arena : Arena) : Nat :=
  arena.nodes.size

/-- The node of an id; an id that was never handed out stands for an empty block. -/
def node (arena : Arena) (id : Id) : Node :=
  arena.nodes.getD id default

def form (arena : Arena) (id : Id) : Form Id :=
  (arena.node id).form

def kind (arena : Arena) (id : Id) : Kind :=
  (arena.form id).kind

def children (arena : Arena) (id : Id) : List Id :=
  (arena.form id).children

/-- Allocates a node. Its children are not told. -/
def alloc (arena : Arena) (form : Form Id) : Id × Arena :=
  (arena.size, { arena with nodes := arena.nodes.push { form } })

def modify (arena : Arena) (id : Id) (change : Node → Node) : Arena :=
  { arena with nodes := arena.nodes.modify id change }

def setForm (arena : Arena) (id : Id) (form : Form Id) : Arena :=
  arena.modify id fun node => { node with form }

def setParent (arena : Arena) (id : Id) (parent : Option Id) : Arena :=
  arena.modify id fun node => { node with parent }

def setBuildTime (arena : Arena) (id : Id) (nanoseconds : Nat) : Arena :=
  arena.modify id fun node => { node with buildTime := some nanoseconds }

/-- Points every child of a node back at it. -/
def adopt (arena : Arena) (holder : Id) : Arena :=
  (arena.children holder).foldl (fun arena child => arena.setParent child (some holder)) arena

/-- Allocates a node and adopts its children. -/
def promote (arena : Arena) (form : Form Id) : Id × Arena :=
  let (id, arena) := arena.alloc form
  (id, arena.adopt id)

/-- Overwrites every build time there is. -/
def restamp (arena : Arena) (nanoseconds : Nat) : Arena :=
  { arena with
    nodes := arena.nodes.map fun node =>
      { node with buildTime := node.buildTime.map fun _ => nanoseconds } }

/-- Replaces `count` entries of a group's list, from `position` on, by `inserted`. -/
def splice (arena : Arena) (id : Id) (position count : Nat) (inserted : List Id) : Arena :=
  arena.setForm id <| (arena.form id).mapItems fun items =>
    items.take position ++ inserted ++ items.drop (position + count)

/-- The tree of ids below a node, cut off after `depth` levels. -/
def unfold (arena : Arena) : Nat → Id → Tree Id
  | 0, id => .node id []
  | depth + 1, id => .node id ((arena.children id).map (arena.unfold depth))

/-- The tree of ids below a node. Without cycles no path is longer than the arena, so nothing is
cut off. -/
def tree (arena : Arena) (root : Id) : Tree Id :=
  arena.unfold arena.size root

/-! ## Reading after writing -/

section Views

variable (arena : Arena) (id : Id)

theorem node_modify (other : Id) (change : Node → Node) :
    (arena.modify id change).node other =
      if id = other ∧ other < arena.size then change (arena.node other) else arena.node other := by
  simp only [modify, node, size, Array.getD_eq_getD_getElem?, Array.getElem?_modify]
  by_cases same : id = other
  · subst same
    by_cases inside : id < arena.nodes.size
    · simp [inside]
    · simp [inside]
  · simp [same]

theorem size_modify (change : Node → Node) : (arena.modify id change).size = arena.size := by
  simp [modify, size]

theorem form_setParent (other : Id) (parent : Option Id) :
    (arena.setParent id parent).form other = arena.form other := by
  simp only [form, setParent, node_modify]
  split <;> rfl

theorem form_adopt : (arena.adopt id).form = arena.form := by
  have each (children : List Id) (start : Arena) :
      (children.foldl (fun arena child => arena.setParent child (some id)) start).form =
        start.form := by
    induction children generalizing start with
    | nil => rfl
    | cons child rest ih =>
      rw [List.foldl_cons, ih]
      funext other
      exact form_setParent start child other (some id)
  exact each _ arena

theorem size_adopt : (arena.adopt id).size = arena.size := by
  have each (children : List Id) (start : Arena) :
      (children.foldl (fun arena child => arena.setParent child (some id)) start).size =
        start.size := by
    induction children generalizing start with
    | nil => rfl
    | cons child rest ih => rw [List.foldl_cons, ih, setParent, size_modify]
  exact each _ arena

theorem node_alloc (form : Form Id) (other : Id) :
    (arena.alloc form).2.node other =
      if other = arena.size then { form } else arena.node other := by
  simp only [alloc, node, size, Array.getD_eq_getD_getElem?, Array.getElem?_push]
  split <;> rfl

theorem size_alloc (form : Form Id) : (arena.alloc form).2.size = arena.size + 1 := by
  simp [alloc, size]

end Views

end Arena

end AstPromotion
