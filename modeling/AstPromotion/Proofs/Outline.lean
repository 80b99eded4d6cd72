import AstPromotion.Dump
import AstPromotion.Proofs.Reachable

/-! # What can be seen of a tree without its ids

The outline of a term is the tree of its forms without what they hold. Unless
build times are asked for, a dump shows no more than the outline: which node of
the arena stands where makes no difference.
-/

namespace AstPromotion

namespace Tree

variable {α β γ : Type}

mutual

theorem map_map (g : β → γ) (f : α → β) : ∀ tree : Tree α, (tree.map f).map g = tree.map (g ∘ f)
  | .node label children => by
      rw [map, map, map, mapEach_mapEach]
      rfl

theorem mapEach_mapEach (g : β → γ) (f : α → β) :
    ∀ trees : List (Tree α), mapEach g (mapEach f trees) = mapEach (g ∘ f) trees
  | [] => rfl
  | tree :: rest => by rw [mapEach, mapEach, mapEach, map_map, mapEach_mapEach]

end

end Tree

namespace Term

variable {ι κ : Type}

/-- The tree of the forms of a term, without what they hold. -/
def outline (term : Term ι) : Tree (Form Unit) :=
  .node term.form.blank (term.children.attach.map fun child => outline child.1)
termination_by term
decreasing_by exact sizeOf_lt_of_mem child.2

theorem outline_eq (term : Term ι) :
    term.outline = .node term.form.blank (term.children.map outline) := by
  rw [outline, List.attach_map_val]

theorem outline_map (f : ι → κ) (term : Term ι) : (term.map f).outline = term.outline := by
  induction term using induction with
  | step term ih =>
      have hblank : (term.form.map (map f)).blank = term.form.blank := Form.map_map _ _ _
      rw [outline_eq, outline_eq, form_map, hblank, children_map, List.map_map]
      congr 1
      exact List.map_congr_left ih

end Term

theorem Arena.Holds.blank_eq {arena : Arena} {term : Term Id} (hholds : arena.Holds term) :
    (arena.form term.label).blank = term.form.blank := by
  rw [hholds.form_eq]
  exact Form.map_map _ _ _

theorem Arena.outline_unfold {arena : Arena} {term : Term Id} (hholds : arena.Holds term)
    {depth : Nat} (hdepth : term.labels.length ≤ depth) :
    (arena.unfold depth term.label).map (fun id => (arena.form id).blank) = term.outline := by
  induction depth generalizing term with
  | zero =>
      rw [Term.labels_eq] at hdepth
      cases hdepth
  | succ depth ih =>
      rw [unfold, Tree.map_node, hholds.blank_eq, Term.outline_eq, hholds.children_eq, List.map_map,
        List.map_map]
      congr 1
      refine List.map_congr_left fun child hchild => ?_
      exact ih ((holds_iff.mp hholds).2 child hchild) (Nat.le_of_lt_succ
        (Nat.lt_of_lt_of_le (Term.length_labels_lt_of_mem_children hchild) hdepth))

/-- The forms below a node outline the abstract tree there. -/
theorem Arena.Bears.outline_eq {arena : Arena} {term : Term Id} (hbears : arena.Bears term) :
    (arena.tree term.label).map (fun id => (arena.form id).blank) = term.erase.outline := by
  rw [tree, outline_unfold hbears.holds hbears.length_le, Term.erase, Term.outline_map]

/-! ## Dumps -/

/-- The line of a node with its payload. -/
def Form.line {α : Type} (form : Form α) : String :=
  form.kind.name ++ match form.value? with
    | some value => " - " ++ value.display
    | none => ""

theorem Node.line_eq (node : Node) : node.line {} = node.form.blank.line := by
  rw [Form.line, Form.blank, Form.kind_map, Form.value?_map]
  cases hvalue : node.form.value? <;> simp [Node.line, hvalue]

/-- The dump of a term. -/
def Term.dump {ι : Type} (term : Term ι) : String :=
  (term.outline.map Form.line).draw

/-- The dump of a node is the dump of the abstract tree below it. -/
theorem Arena.Bears.dump_eq {arena : Arena} {term : Term Id} (hbears : arena.Bears term) :
    arena.dump term.label = term.erase.dump := by
  have hline : (fun id => (arena.node id).line {}) =
      Form.line ∘ fun id => (arena.form id).blank := funext fun id => (arena.node id).line_eq
  rw [Arena.dump, hline, ← Tree.map_map, hbears.outline_eq, Term.dump]

end AstPromotion
