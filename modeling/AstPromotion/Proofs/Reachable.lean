import AstPromotion.Proofs.Arena

/-! # What is reachable from a node

The tree of ids below a node is cut off at a depth that only a cycle exceeds. So
if no id occurs in it twice, it is all that is reachable, and the arena bears a
term there.
-/

namespace AstPromotion.Arena

variable {arena : Arena} {root : Id}

/-- The nodes that can be reached from a root by going to children. -/
inductive Reaches (arena : Arena) (root : Id) : Id → Prop
  | root : Reaches arena root root
  | child {id child : Id} (hreaches : Reaches arena root id)
      (hchild : child ∈ arena.children id) : Reaches arena root child

/-- What is reachable from the root is a finite tree: there is a node for every id, and no node is
reached twice. -/
def IsTree (arena : Arena) (root : Id) : Prop :=
  (arena.tree root).preorder.Nodup ∧ ∀ id ∈ (arena.tree root).preorder, id < arena.size

instance (arena : Arena) (root : Id) : Decidable (arena.IsTree root) :=
  inferInstanceAs (Decidable (_ ∧ _))

/-- The term below a node, cut off after `depth` levels. -/
def unfoldTerm (arena : Arena) : Nat → Id → Term Id
  | 0, id => .node id default
  | depth + 1, id => .node id ((arena.form id).map (arena.unfoldTerm depth))

@[simp] theorem label_unfoldTerm (depth : Nat) (id : Id) : (arena.unfoldTerm depth id).label = id := by
  cases depth <;> rfl

theorem children_unfoldTerm (depth : Nat) (id : Id) :
    (arena.unfoldTerm (depth + 1) id).children = (arena.children id).map (arena.unfoldTerm depth) := by
  rw [unfoldTerm, Term.children_node, Form.children_map, children]

theorem unfold_eq_skeleton (depth : Nat) (id : Id) :
    arena.unfold depth id = (arena.unfoldTerm depth id).skeleton := by
  induction depth generalizing id with
  | zero =>
      rw [Term.skeleton_eq]
      rfl
  | succ depth ih =>
      rw [unfold, Term.skeleton_eq, children_unfoldTerm, label_unfoldTerm, List.map_map]
      congr 1
      exact List.map_congr_left fun child _ => ih child

theorem preorder_unfold (depth : Nat) (id : Id) :
    (arena.unfold depth id).preorder = (arena.unfoldTerm depth id).labels := by
  rw [unfold_eq_skeleton, Term.preorder_skeleton]

/-- A path without repetitions leaves less room for the nodes below it. When there is no room left,
nothing was cut off. -/
theorem holds_unfoldTerm {depth : Nat} {id : Id} (path : List Id)
    (hnodup : (path ++ (arena.unfoldTerm depth id).labels).Nodup)
    (hinside : ∀ other ∈ path ++ (arena.unfoldTerm depth id).labels, other < arena.size)
    (hroom : arena.size ≤ path.length + depth) : arena.Holds (arena.unfoldTerm depth id) := by
  induction depth generalizing id path with
  | zero =>
      have hsubset : path ++ (arena.unfoldTerm 0 id).labels ⊆ List.range arena.size :=
        fun other hother => List.mem_range.mpr (hinside other hother)
      have hlength := (List.subperm_of_subset hnodup hsubset).length_le
      rw [List.length_append, List.length_range, Term.labels_eq, List.length_cons] at hlength
      omega
  | succ depth ih =>
      refine holds_iff.mpr ⟨?_, ?_⟩
      · rw [label_unfoldTerm, unfoldTerm, Term.form_node, Form.map_map]
        exact (Form.map_eq_self fun child _ => label_unfoldTerm depth child).symm
      · intro child hchild
        have hsublist : (path ++ [id] ++ child.labels).Sublist
            (path ++ (arena.unfoldTerm (depth + 1) id).labels) := by
          have hflat := (List.singleton_sublist.mpr hchild).flatMap Term.labels
          rw [List.flatMap_singleton] at hflat
          rw [List.append_assoc, Term.labels_eq (arena.unfoldTerm (depth + 1) id), label_unfoldTerm]
          exact (hflat.cons_cons id).append_left path
        rw [children_unfoldTerm] at hchild
        obtain ⟨below, hbelow, rfl⟩ := List.mem_map.mp hchild
        refine ih (path ++ [id]) (hsublist.nodup hnodup)
          (fun other hother => hinside other (hsublist.subset hother)) ?_
        rw [List.length_append, List.length_singleton]
        omega

/-- Deep enough, nothing of a borne term is cut off. -/
theorem unfoldTerm_eq {term : Term Id} (hholds : arena.Holds term) {depth : Nat}
    (hdepth : term.labels.length ≤ depth) : arena.unfoldTerm depth term.label = term := by
  induction depth generalizing term with
  | zero =>
      rw [Term.labels_eq] at hdepth
      cases hdepth
  | succ depth ih =>
      rw [unfoldTerm, hholds.form_eq, Form.map_map]
      conv => rhs; rw [← term.node_eta]
      congr 1
      apply Form.map_eq_self
      intro child hchild
      exact ih ((holds_iff.mp hholds).2 child hchild)
        (Nat.le_of_lt_succ (Nat.lt_of_lt_of_le (Term.length_labels_lt_of_mem_children hchild) hdepth))

/-- The tree below a node that bears a term is the tree of its labels. -/
theorem Bears.tree_eq {term : Term Id} (hbears : arena.Bears term) :
    arena.tree term.label = term.skeleton := by
  rw [tree, unfold_eq_skeleton, unfoldTerm_eq hbears.holds hbears.length_le]

/-- The ids below a node that bears a term are the labels of the term. -/
theorem Bears.preorder_tree {term : Term Id} (hbears : arena.Bears term) :
    (arena.tree term.label).preorder = term.labels := by
  rw [hbears.tree_eq, Term.preorder_skeleton]

theorem Bears.isTree {term : Term Id} (hbears : arena.Bears term) : arena.IsTree term.label := by
  rw [IsTree, hbears.preorder_tree]
  exact ⟨hbears.nodup, hbears.inside⟩

theorem IsTree.exists_bears (htree : arena.IsTree root) :
    ∃ term : Term Id, term.label = root ∧ arena.Bears term := by
  obtain ⟨hnodup, hinside⟩ := htree
  rw [tree, preorder_unfold] at hnodup hinside
  refine ⟨arena.unfoldTerm arena.size root, label_unfoldTerm _ _, ?_⟩
  exact {
    holds := holds_unfoldTerm [] hnodup hinside (by simp)
    nodup := hnodup
    inside := hinside }

theorem Bears.reaches_iff {term : Term Id} (hbears : arena.Bears term) {id : Id} :
    arena.Reaches term.label id ↔ id ∈ term.labels := by
  constructor
  · intro hreaches
    induction hreaches with
    | root => exact term.label_mem_labels
    | child _ hchild ih =>
        obtain ⟨inner, hinner, rfl⟩ := List.mem_map.mp ih
        rw [(hbears.holds.of_mem hinner).children_eq] at hchild
        obtain ⟨below, hbelow, rfl⟩ := List.mem_map.mp hchild
        exact List.mem_map_of_mem (Term.mem_subterms_of_child_of_mem hinner hbelow)
  · intro hmem
    obtain ⟨inner, hinner, rfl⟩ := List.mem_map.mp hmem
    have hall {outer : Term Id} (houter : outer ∈ term.subterms)
        (hreaches : arena.Reaches term.label outer.label) :
        ∀ inner ∈ outer.subterms, arena.Reaches term.label inner.label := by
      induction outer using Term.induction with
      | step outer ih =>
          refine Term.forall_subterms_iff.mpr ⟨hreaches, ?_⟩
          intro child hchild
          refine ih child hchild (Term.mem_subterms_of_child_of_mem houter hchild) ?_
          refine hreaches.child ?_
          rw [(hbears.holds.of_mem houter).children_eq]
          exact List.mem_map_of_mem hchild
    exact hall term.mem_subterms_self .root inner hinner

/-! ## What lies below the parts of a tree -/

variable {id : Id}

theorem IsTree.of_reaches (htree : arena.IsTree root) (hreaches : arena.Reaches root id) :
    arena.IsTree id := by
  obtain ⟨term, rfl, hbears⟩ := htree.exists_bears
  obtain ⟨inner, hinner, rfl⟩ := List.mem_map.mp (hbears.reaches_iff.mp hreaches)
  exact (hbears.of_mem hinner).isTree

theorem IsTree.lt_size (htree : arena.IsTree root) (hreaches : arena.Reaches root id) :
    id < arena.size := by
  obtain ⟨term, rfl, hbears⟩ := htree.exists_bears
  exact hbears.inside id (hbears.reaches_iff.mp hreaches)

/-- Nothing leads back to the root of a tree. -/
theorem IsTree.not_reaches_root (htree : arena.IsTree root) {child : Id}
    (hchild : child ∈ arena.children root) : ¬ arena.Reaches child root := by
  obtain ⟨term, rfl, hbears⟩ := htree.exists_bears
  rw [hbears.holds.children_eq] at hchild
  obtain ⟨below, hbelow, rfl⟩ := List.mem_map.mp hchild
  rw [(hbears.of_mem_children hbelow).reaches_iff]
  exact hbears.label_not_mem hbelow

/-- What is below one child of the root is not below another. -/
theorem IsTree.not_reaches_of_sibling (htree : arena.IsTree root) {earlier later : List Id}
    {child sibling : Id} (hchildren : arena.children root = earlier ++ child :: later)
    (hsibling : sibling ∈ earlier ++ later) (hreaches : arena.Reaches child id) :
    ¬ arena.Reaches sibling id := by
  obtain ⟨term, rfl, hbears⟩ := htree.exists_bears
  have hnodup := hbears.children_nodup
  rw [hbears.holds.children_eq] at hchildren
  obtain ⟨earlier, rest, hterms, rfl, hrest⟩ := List.map_eq_append_iff.mp hchildren
  obtain ⟨child, later, rfl, rfl, rfl⟩ := List.map_eq_cons_iff.mp hrest
  rw [← List.map_append] at hsibling
  obtain ⟨sibling, hmem, rfl⟩ := List.mem_map.mp hsibling
  have hbelow {other : Term Id} (hother : other ∈ earlier ++ child :: later) : arena.Bears other :=
    hbears.of_mem_children (hterms ▸ hother)
  rw [hterms, List.perm_middle.flatMap_right Term.labels |>.nodup_iff, List.flatMap_cons] at hnodup
  rw [(hbelow (by simp)).reaches_iff] at hreaches
  have hmiddle : sibling ∈ earlier ++ child :: later := by
    rcases List.mem_append.mp hmem with hmem | hmem <;> simp [hmem]
  rw [(hbelow hmiddle).reaches_iff]
  exact fun hid => List.disjoint_of_nodup_append hnodup hreaches
    (List.mem_flatMap.mpr ⟨sibling, hmem, hid⟩)

end AstPromotion.Arena
