import AstPromotion.Proofs.Arena
import AstPromotion.Proofs.Visit

/-! # Changes to an arena that bears a term

Offering a node to the rules changes the term that is borne and nothing outside
it. Each kind of change is a transition, and transitions compose.
-/

namespace AstPromotion

namespace Arena

/-- How an arena grows: no node is freed, and exactly the new nodes are timed. -/
structure Grown (before after : Arena) : Prop where
  size_le : before.size ≤ after.size
  times : ∀ id, (after.node id).buildTime =
    if id < before.size then (before.node id).buildTime
    else if id < after.size then some 0 else none

namespace Grown

theorem refl (arena : Arena) : Grown arena arena where
  size_le := Nat.le_refl _
  times id := by
    split
    next => rfl
    next hout =>
        rw [arena.node_of_size_le (Nat.le_of_not_lt hout)]
        rfl

/-- Changes that allocate nothing and leave the times alone count as growth. -/
theorem of_size_eq {before after : Arena} (hsize : after.size = before.size)
    (htimes : ∀ id, (after.node id).buildTime = (before.node id).buildTime) :
    Grown before after where
  size_le := Nat.le_of_eq hsize.symm
  times id := by rw [htimes, hsize, ← (refl before).times id]

theorem trans {first second third : Arena} (hfirst : Grown first second)
    (hsecond : Grown second third) : Grown first third where
  size_le := Nat.le_trans hfirst.size_le hsecond.size_le
  times id := by
    rw [hsecond.times id, hfirst.times id]
    by_cases hold : id < first.size
    · rw [if_pos (Nat.lt_of_lt_of_le hold hfirst.size_le), if_pos hold, if_pos hold]
    · rw [if_neg hold, if_neg hold]
      by_cases hmiddle : id < second.size
      · rw [if_pos hmiddle, if_pos hmiddle, if_pos (Nat.lt_of_lt_of_le hmiddle hsecond.size_le)]
      · rw [if_neg hmiddle]

end Grown

/-- How an arena that bears `term` becomes one that bears `result` in its place: other nodes are
left alone, and the root's parent is handed on. -/
structure Transition (before : Arena) (term : Term Id) (after : Arena) (result : Term Id) : Prop
    extends Grown before after where
  bears : after.Bears result
  labels : ∀ id ∈ result.labels, id ∈ term.labels ∨ before.size ≤ id
  frame : ∀ id < before.size, id ∉ term.labels → after.node id = before.node id
  parent : (after.node result.label).parent = (before.node term.label).parent

namespace Transition

theorem refl {arena : Arena} {term : Term Id} (hbears : arena.Bears term) :
    Transition arena term arena term where
  toGrown := Grown.refl arena
  bears := hbears
  labels _ hid := Or.inl hid
  frame _ _ _ := rfl
  parent := rfl

theorem trans {first second third : Arena} {term middle result : Term Id}
    (hfirst : Transition first term second middle)
    (hsecond : Transition second middle third result) : Transition first term third result where
  toGrown := hfirst.toGrown.trans hsecond.toGrown
  bears := hsecond.bears
  labels id hid := by
    rcases hsecond.labels id hid with hmiddle | hnew
    · exact hfirst.labels id hmiddle
    · exact Or.inr (Nat.le_trans hfirst.size_le hnew)
  frame id hid hout := by
    have hmiddle : id ∉ middle.labels := by
      intro hmem
      rcases hfirst.labels id hmem with hterm | hnew
      · exact hout hterm
      · exact Nat.not_lt_of_le hnew hid
    rw [hsecond.frame id (Nat.lt_of_lt_of_le hid hfirst.size_le) hmiddle, hfirst.frame id hid hout]
  parent := hsecond.parent.trans hfirst.parent

end Transition

variable {arena : Arena} {term : Term Id}

/-- What rules see of the nodes of a borne term is what they see of the term. -/
theorem Holds.views (hholds : arena.Holds term) :
    Views Term.form arena.form Term.label (· ∈ term.subterms) where
  look_eq inner hinner := hholds inner hinner
  closed _ hinner _ hchild := Term.mem_subterms_of_child_of_mem hinner hchild

/-- Adopting the children of the root is no change to the term. -/
theorem transition_adopt (hbears : arena.Bears term) :
    Transition arena term (arena.adopt term.label) term := by
  have hinside := hbears.children_inside
  have hroot : term.label ∉ arena.children term.label := by
    rw [hbears.holds.children_eq]
    intro hmem
    obtain ⟨child, hchild, heq⟩ := List.mem_map.mp hmem
    exact hbears.label_not_mem hchild (heq ▸ child.label_mem_labels)
  have hgrown : Grown arena (arena.adopt term.label) :=
    Grown.of_size_eq (arena.size_adopt term.label) (buildTime_adopt arena hinside)
  exact {
    toGrown := hgrown
    bears := hbears.congr (fun id _ => congrFun (arena.form_adopt term.label) id) hgrown.size_le
    labels := fun _ hid => Or.inl hid
    frame := by
      intro id _ hout
      apply node_adopt_of_not_mem arena hinside
      rw [hbears.holds.children_eq]
      intro hmem
      obtain ⟨child, hchild, rfl⟩ := List.mem_map.mp hmem
      exact hout (Term.mem_labels_of_mem_children hchild child.label_mem_labels)
    parent := by rw [node_adopt_of_not_mem arena hinside hroot] }

/-- Reading the payload of a leaf changes that node only. -/
theorem transition_coerce (hbears : arena.Bears term) (value : Value) :
    Transition arena term (arena.setForm term.label ((arena.form term.label).withValue value))
      (term.withValue value) := by
  have hlabels : (term.withValue value).labels = term.labels := by
    rw [Term.labels_eq, Term.labels_eq, Term.children_withValue, Term.label_withValue]
  have hform : (arena.form term.label).withValue value =
      (term.withValue value).form.map Term.label := by
    rw [hbears.holds.form_eq, Term.withValue, Term.form_node, Form.map_withValue]
  rw [hform]
  have hnode := node_setForm arena hbears.root_inside ((term.withValue value).form.map Term.label)
  have hother {id : Id} (hid : id ≠ term.label) :
      (arena.setForm term.label ((term.withValue value).form.map Term.label)).node id =
        arena.node id := by
    rw [hnode, if_neg hid]
  exact {
    toGrown := by
      refine Grown.of_size_eq (size_setForm arena _ _) ?_
      intro id
      rw [hnode]
      split <;> rfl
    bears := {
      holds := by
        refine holds_iff.mpr ⟨?_, ?_⟩
        · rw [form, Term.label_withValue, hnode, if_pos rfl]
        · intro child hchild
          rw [Term.children_withValue] at hchild
          apply (hbears.of_mem_children hchild).holds.congr
          intro id hid
          have hne : id ≠ term.label := fun heq => hbears.label_not_mem hchild (heq ▸ hid)
          rw [form, hother hne, form]
      nodup := hlabels ▸ hbears.nodup
      inside := by
        rw [hlabels, size_setForm]
        exact hbears.inside }
    labels := fun id hid => Or.inl (hlabels ▸ hid)
    frame := fun id _ hout => hother fun heq => hout (heq ▸ term.label_mem_labels)
    parent := by
      rw [Term.label_withValue, hnode]
      split <;> rfl }

/-- A child put in the root's place takes over the root's parent. -/
theorem transition_lift (hbears : arena.Bears term) {child : Term Id}
    (hchild : child ∈ term.children) :
    Transition arena term (arena.setParent child.label (arena.node term.label).parent) child := by
  have hchild_bears := hbears.of_mem_children hchild
  have hnode := node_setParent arena hchild_bears.root_inside (arena.node term.label).parent
  exact {
    toGrown := by
      refine Grown.of_size_eq (size_setParent arena _ _) ?_
      intro id
      rw [hnode]
      split <;> rfl
    bears := hchild_bears.congr (fun id _ => form_setParent arena _ id _)
      (Nat.le_of_eq (size_setParent arena _ _).symm)
    labels := fun id hid => Or.inl (Term.mem_labels_of_mem_children hchild hid)
    frame := by
      intro id _ hout
      rw [hnode, if_neg]
      rintro rfl
      exact hout (Term.mem_labels_of_mem_children hchild child.label_mem_labels)
    parent := by rw [hnode, if_pos rfl] }

theorem linked_lift (hbears : arena.Bears term) (hlinked : arena.Linked term) {child : Term Id}
    (hchild : child ∈ term.children) :
    (arena.setParent child.label (arena.node term.label).parent).Linked child := by
  have hchild_bears := hbears.of_mem_children hchild
  apply ((linked_iff.mp hlinked).2 child hchild).congr
  intro grandchild hgrandchild id hid
  rw [node_setParent arena hchild_bears.root_inside, if_neg]
  rintro rfl
  exact hchild_bears.label_not_mem hgrandchild hid

end Arena

end AstPromotion
