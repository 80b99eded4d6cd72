import AstPromotion.Proofs.Building
import AstPromotion.Sketch.Basic

/-! # Planting a sketch

The arena that a sketch was planted in bears the sketch as a term, with ids that
were not there before. In postorder they are the next ids of the arena without
gaps, and every node below the root names its holder.
-/

namespace AstPromotion

namespace Sketch

/-- What holds of tokens, and of groups as soon as it holds of their items, holds of every
sketch. -/
@[elab_as_elim]
theorem induction {motive : Sketch → Prop} (leaf : ∀ token, motive (leaf token))
    (group : ∀ kind items, (∀ item ∈ items, motive item) → motive (group kind items)) :
    ∀ sketch, motive sketch
  | .leaf token => leaf token
  | .group kind items => group kind items fun item _ => induction leaf group item

mutual

/-- The sketch as a term without ids. -/
def toTerm (file : String) : Sketch → Term Unit
  | leaf token => .node () (.leaf token.kind (.raw token.raw))
  | group kind items => .node () (.group (kind.heading file) (toTermEach file items))

/-- `toTerm` of every sketch of a list. -/
def toTermEach (file : String) : List Sketch → List (Term Unit)
  | [] => []
  | item :: rest => toTerm file item :: toTermEach file rest

end

theorem toTermEach_eq_map (file : String) (items : List Sketch) :
    toTermEach file items = items.map (toTerm file) := by
  induction items with
  | nil => rfl
  | cons item rest ih => rw [toTermEach, ih, List.map_cons]

theorem toTerm_group (file : String) (kind : GroupKind) (items : List Sketch) :
    toTerm file (group kind items) =
      .node () (.group (kind.heading file) (items.map (toTerm file))) := by
  rw [toTerm, toTermEach_eq_map]

end Sketch

namespace Tree

variable {α : Type}

mutual

/-- The labels, each after those below it and those to its left. -/
def postorder : Tree α → List α
  | .node label children => postorderEach children ++ [label]

/-- `postorder` of the trees of a list, one after another. -/
def postorderEach : List (Tree α) → List α
  | [] => []
  | tree :: rest => postorder tree ++ postorderEach rest

end

theorem postorderEach_eq_flatMap (trees : List (Tree α)) :
    postorderEach trees = trees.flatMap postorder := by
  induction trees with
  | nil => rfl
  | cons tree rest ih => rw [postorderEach, ih, List.flatMap_cons]

end Tree

namespace Term

variable {ι : Type}

/-- The labels of a term in postorder. -/
def postorder (term : Term ι) : List ι :=
  term.skeleton.postorder

theorem postorder_eq (term : Term ι) :
    term.postorder = term.children.flatMap postorder ++ [term.label] := by
  rw [postorder, skeleton_eq, Tree.postorder, Tree.postorderEach_eq_flatMap, List.flatMap_map]
  rfl

theorem postorder_perm (term : Term ι) : term.postorder.Perm term.labels := by
  induction term using induction with
  | step term ih =>
      rw [postorder_eq, labels_eq]
      exact (List.perm_append_singleton _ _).trans ((List.Perm.flatMap_left _ ih).cons _)

end Term

namespace Arena

/-- A leaf has nothing to adopt. -/
theorem promote_leaf (arena : Arena) (kind : LeafKind) (value : Value) :
    arena.promote (.leaf kind value) = arena.alloc (.leaf kind value) := by
  have hchildren : (arena.alloc (.leaf kind value)).2.children arena.size = [] := by
    rw [children, Arena.form, node_alloc, if_pos rfl]
    rfl
  have hadopt : (arena.alloc (.leaf kind value)).2.adopt arena.size =
      (arena.alloc (.leaf kind value)).2 := by
    rw [adopt, hchildren]
    rfl
  exact congrArg (Prod.mk arena.size) hadopt

/-- How an arena gets the nodes of terms that were planted in it. -/
structure Planted (before : Arena) (terms : List (Term Id)) (after : Arena) : Prop where
  holds : ∀ term ∈ terms, after.Holds term
  linked : ∀ term ∈ terms, after.Linked term
  unheld : ∀ term ∈ terms, (after.node term.label).parent = none
  postorder : terms.flatMap Term.postorder = List.range' before.size (after.size - before.size)
  untimed : ∀ id, before.size ≤ id → (after.node id).buildTime = none
  size_le : before.size ≤ after.size
  frame : ∀ id < before.size, after.node id = before.node id

namespace Planted

variable {before middle after first second third : Arena} {terms rest : List (Term Id)}
  {term : Term Id}

theorem labels_perm (hplanted : Planted before terms after) :
    (terms.flatMap Term.labels).Perm (List.range' before.size (after.size - before.size)) := by
  rw [← hplanted.postorder]
  exact (List.Perm.flatMap_left terms fun term _ => term.postorder_perm).symm

theorem nodup (hplanted : Planted before terms after) : (terms.flatMap Term.labels).Nodup :=
  hplanted.labels_perm.nodup_iff.mpr List.nodup_range'

/-- The nodes of the terms are all the new ones. -/
theorem mem_iff (hplanted : Planted before terms after) {id : Id} :
    id ∈ terms.flatMap Term.labels ↔ before.size ≤ id ∧ id < after.size := by
  rw [hplanted.labels_perm.mem_iff, List.mem_range'_1,
    Nat.add_sub_cancel' hplanted.size_le]

theorem lt_size (hplanted : Planted before terms after) (hterm : term ∈ terms) {id : Id}
    (hid : id ∈ term.labels) : id < after.size :=
  (hplanted.mem_iff.mp (List.mem_flatMap.mpr ⟨term, hterm, hid⟩)).2

theorem bears (hplanted : Planted before terms after) (term : Term Id) (hterm : term ∈ terms) :
    after.Bears term where
  holds := hplanted.holds term hterm
  nodup := (List.nodup_flatMap.mp hplanted.nodup).1 term hterm
  inside _ hid := hplanted.lt_size hterm hid

theorem nil (arena : Arena) : Planted arena [] arena where
  holds _ hmem := nomatch hmem
  linked _ hmem := nomatch hmem
  unheld _ hmem := nomatch hmem
  postorder := by rw [Nat.sub_self]; rfl
  untimed id hid := by rw [arena.node_of_size_le hid]; rfl
  size_le := Nat.le_refl _
  frame _ _ := rfl

theorem cons (hterm : Planted first [term] second) (hrest : Planted second rest third) :
    Planted first (term :: rest) third where
  holds := by
    refine List.forall_mem_cons.mpr ⟨?_, hrest.holds⟩
    refine (hterm.holds term List.mem_cons_self).congr fun id hid => ?_
    exact congrArg Node.form (hrest.frame id (hterm.lt_size List.mem_cons_self hid))
  linked := by
    refine List.forall_mem_cons.mpr ⟨?_, hrest.linked⟩
    refine (hterm.linked term List.mem_cons_self).congr fun child hchild id hid => ?_
    rw [hrest.frame id (hterm.lt_size List.mem_cons_self (Term.mem_labels_of_mem_children hchild hid))]
  unheld := by
    refine List.forall_mem_cons.mpr ⟨?_, hrest.unheld⟩
    rw [hrest.frame _ (hterm.lt_size List.mem_cons_self term.label_mem_labels)]
    exact hterm.unheld term List.mem_cons_self
  postorder := by
    have hfirst := hterm.postorder
    have hsizes : second.size = first.size + (second.size - first.size) :=
      (Nat.add_sub_cancel' hterm.size_le).symm
    rw [List.flatMap_singleton] at hfirst
    rw [List.flatMap_cons, hfirst, hrest.postorder]
    conv => lhs; rhs; rw [hsizes]
    rw [List.range'_append_1]
    congr 1
    have hfirst_le := hterm.size_le
    have hrest_le := hrest.size_le
    omega
  untimed := by
    intro id hid
    by_cases hold : id < second.size
    · rw [hrest.frame id hold]
      exact hterm.untimed id hid
    · exact hrest.untimed id (Nat.le_of_not_lt hold)
  size_le := Nat.le_trans hterm.size_le hrest.size_le
  frame := by
    intro id hid
    rw [hrest.frame id (Nat.lt_of_lt_of_le hid hterm.size_le), hterm.frame id hid]

/-- A node promoted over planted terms stands above them and adopts them. -/
theorem promote (form : Form (Term Id)) (hplanted : Planted before form.children middle) :
    Planted before [.node middle.size form] (middle.promote (form.map Term.label)).2 := by
  have hchildren : (form.map Term.label).children = form.children.map Term.label :=
    form.children_map Term.label
  have hbelow {child : Term Id} (hchild : child ∈ form.children) {id : Id}
      (hid : id ∈ child.labels) : id < middle.size := hplanted.lt_size hchild hid
  have hinside : ∀ id ∈ (form.map Term.label).children, id < middle.size := by
    intro id hid
    rw [hchildren] at hid
    obtain ⟨child, hchild, rfl⟩ := List.mem_map.mp hid
    exact hbelow hchild child.label_mem_labels
  have hnode := node_promote hinside
  have hform {id : Id} (hid : id < middle.size) :
      (middle.promote (form.map Term.label)).2.form id = middle.form id := by
    rw [Arena.form, hnode, if_neg (Nat.ne_of_lt hid), Arena.form]
    split <;> rfl
  have hroot : (middle.promote (form.map Term.label)).2.node middle.size =
      { form := form.map Term.label } := by
    rw [hnode, if_pos rfl]
  have hsize := size_promote middle (form.map Term.label)
  exact {
    holds := by
      refine List.forall_mem_singleton.mpr (holds_iff.mpr ⟨?_, ?_⟩)
      · rw [Term.label_node, Arena.form, hroot, Term.form_node]
      · intro child hchild
        exact (hplanted.holds child hchild).congr fun id hid => hform (hbelow hchild hid)
    linked := by
      refine List.forall_mem_singleton.mpr (linked_iff.mpr ⟨?_, ?_⟩)
      · intro child hchild
        have hmem : child.label ∈ (form.map Term.label).children := by
          rw [hchildren]
          exact List.mem_map_of_mem hchild
        rw [hnode, if_neg (Nat.ne_of_lt (hbelow hchild child.label_mem_labels)), if_pos hmem]
        rfl
      · intro child hchild
        refine (hplanted.linked child hchild).congr fun grandchild hgrandchild id hid => ?_
        -- A node strictly below a child is no child itself, so adoption passes it by.
        have hout : id ∉ (form.map Term.label).children := by
          rw [hchildren]
          exact Term.not_mem_map_label hplanted.nodup hchild hgrandchild hid
        have hold := hbelow hchild (Term.mem_labels_of_mem_children hgrandchild hid)
        rw [hnode, if_neg (Nat.ne_of_lt hold), if_neg hout]
    unheld := by
      refine List.forall_mem_singleton.mpr ?_
      rw [Term.label_node, hroot]
    postorder := by
      have hgrown : middle.size + 1 - before.size = middle.size - before.size + 1 :=
        Nat.sub_add_comm hplanted.size_le
      rw [List.flatMap_singleton, Term.postorder_eq, Term.children_node, hplanted.postorder, hsize,
        hgrown, List.range'_1_concat, Nat.add_sub_cancel' hplanted.size_le, Term.label_node]
    untimed := by
      intro id hid
      rw [hnode]
      split
      next => rfl
      next =>
          have huntimed := hplanted.untimed id hid
          split <;> exact huntimed
    size_le := by
      rw [hsize]
      exact Nat.le_succ_of_le hplanted.size_le
    frame := by
      intro id hid
      have hmiddle := Nat.lt_of_lt_of_le hid hplanted.size_le
      have hout : id ∉ (form.map Term.label).children := by
        rw [hchildren]
        intro hmem
        obtain ⟨child, hchild, rfl⟩ := List.mem_map.mp hmem
        have hnew := hplanted.mem_iff.mp
          (List.mem_flatMap.mpr ⟨child, hchild, child.label_mem_labels⟩)
        exact Nat.not_lt_of_le hnew.1 hid
      rw [hnode, if_neg (Nat.ne_of_lt hmiddle), if_neg hout, hplanted.frame id hid] }

end Planted

end Arena

namespace Sketch

open Arena

theorem exists_plantedEach {file : String} {items : List Sketch}
    (hitem : ∀ item ∈ items, ∀ arena : Arena, ∃ term : Term Id,
      term.label = (item.plant file arena).1 ∧ term.erase = item.toTerm file ∧
        Planted arena [term] (item.plant file arena).2)
    (arena : Arena) :
    ∃ terms : List (Term Id), terms.map Term.label = (plantEach file items arena).1 ∧
      terms.map Term.erase = items.map (toTerm file) ∧
        Planted arena terms (plantEach file items arena).2 := by
  induction items generalizing arena with
  | nil => exact ⟨[], rfl, rfl, Planted.nil arena⟩
  | cons item rest ih =>
      obtain ⟨term, hlabel, herase, hterm⟩ := hitem item List.mem_cons_self arena
      obtain ⟨terms, hlabels, herases, hterms⟩ :=
        ih (fun other hother => hitem other (List.mem_cons_of_mem _ hother)) (item.plant file arena).2
      refine ⟨term :: terms, ?_, ?_, ?_⟩
      · rw [plantEach, List.map_cons, hlabel, hlabels]
      · rw [List.map_cons, List.map_cons, herase, herases]
      · rw [plantEach]
        exact hterm.cons hterms

/-- A sketch is planted as the term that it is. -/
theorem exists_planted (file : String) (sketch : Sketch) (arena : Arena) :
    ∃ term : Term Id, term.label = (sketch.plant file arena).1 ∧ term.erase = sketch.toTerm file ∧
      Planted arena [term] (sketch.plant file arena).2 := by
  induction sketch using induction generalizing arena with
  | leaf token =>
      refine ⟨.node arena.size (.leaf token.kind (.raw token.raw)), ?_, ?_, ?_⟩
      · rw [plant]
        rfl
      · rw [Term.erase, Term.map_eq, toTerm]
        rfl
      · rw [plant, ← promote_leaf]
        exact Planted.promote (.leaf token.kind (.raw token.raw)) (Planted.nil arena)
  | group kind items ih =>
      obtain ⟨terms, hlabels, herases, hterms⟩ := exists_plantedEach ih arena
      refine ⟨.node (plantEach file items arena).2.size (.group (kind.heading file) terms), ?_, ?_, ?_⟩
      · rw [plant]
        rfl
      · rw [Term.erase, Term.map_eq, toTerm_group, ← herases]
        rfl
      · have hpromoted := Planted.promote (.group (kind.heading file) terms) hterms
        rw [Form.map, hlabels] at hpromoted
        rw [plant]
        exact hpromoted

end Sketch

end AstPromotion
