import AstPromotion.Proofs.Offering

/-! # A visit does to the arena what it does to the term

Siblings are visited one after another, and each visit leaves the others alone,
so what becomes of a node depends on the term below it only. Ids of new nodes
depend on the order of visits; up to those, the visit of a node in an arena is
the visit of its term.
-/

namespace AstPromotion.Arena

/-- How the visit of a node and everything below it answers to what becomes of its term. -/
structure Visited (phase : Phase) (before : Arena) (term : Term Id) (visit : Visit)
    (residue : Residue Id) : Prop extends Simulates before term visit residue where
  linked : visit.arena.Linked residue.term
  gone_label : residue.gone = true → residue.term.label = term.label
  image : ∀ {κ : Type} (f : Id → κ) (fresh : κ), (∀ id, before.size ≤ id → f id = fresh) →
    (term.map f).visit phase fresh = residue.map f

/-- How the visits of siblings answer to what becomes of their terms. -/
structure VisitedEach (phase : Phase) (before : Arena) (terms : List (Term Id)) (visits : Visits)
    (residue : Term Id → Residue Id) : Prop extends Grown before visits.arena where
  standing : visits.standing = terms.map fun term =>
    if (residue term).gone then none else some (residue term).term.label
  events : visits.events = terms.flatMap fun term => (residue term).events
  bears : ∀ term ∈ terms, visits.arena.Bears (residue term).term
  nodup : (terms.flatMap fun term => (residue term).term.labels).Nodup
  labels : ∀ term ∈ terms, ∀ id ∈ (residue term).term.labels, id ∈ term.labels ∨ before.size ≤ id
  frame : ∀ id < before.size, (∀ term ∈ terms, id ∉ term.labels) →
    visits.arena.node id = before.node id
  linked : ∀ term ∈ terms, visits.arena.Linked (residue term).term
  gone_label : ∀ term ∈ terms, (residue term).gone = true → (residue term).term.label = term.label
  image : ∀ term ∈ terms, ∀ {κ : Type} (f : Id → κ) (fresh : κ),
    (∀ id, before.size ≤ id → f id = fresh) → (term.map f).visit phase fresh = (residue term).map f

/-- Nodes whose forms and parents are kept bear what they bore. -/
theorem Bears.congr_node {arena other : Arena} {term : Term Id} (hbears : arena.Bears term)
    (hnode : ∀ id ∈ term.labels, other.node id = arena.node id) (hsize : arena.size ≤ other.size) :
    other.Bears term :=
  hbears.congr (fun id hid => by rw [form, hnode id hid, form]) hsize

theorem Linked.congr_node {arena other : Arena} {term : Term Id} (hlinked : arena.Linked term)
    (hnode : ∀ id ∈ term.labels, other.node id = arena.node id) : other.Linked term := by
  apply hlinked.congr
  intro child hchild id hid
  rw [hnode id (Term.mem_labels_of_mem_children hchild hid)]

theorem visitedEach_nil (phase : Phase) (arena : Arena) (residue : Term Id → Residue Id) :
    VisitedEach phase arena [] { standing := [], arena, events := [] } residue where
  toGrown := Grown.refl arena
  standing := rfl
  events := rfl
  bears _ hmem := nomatch hmem
  nodup := List.nodup_nil
  labels _ hmem := nomatch hmem
  frame _ _ _ := rfl
  linked _ hmem := nomatch hmem
  gone_label _ hmem := nomatch hmem
  image _ hmem := nomatch hmem

/-- The visit of one term, followed by the visits of its later siblings. -/
theorem visitedEach_cons {phase : Phase} {arena : Arena} {term : Term Id} {rest : List (Term Id)}
    {first : Visit} {others : Visits} {residue : Residue Id} {residues : Term Id → Residue Id}
    (hinside : ∀ other ∈ term :: rest, ∀ id ∈ other.labels, id < arena.size)
    (hnodup : ((term :: rest).flatMap Term.labels).Nodup)
    (hfirst : Visited phase arena term first residue)
    (hothers : VisitedEach phase first.arena rest others residues) :
    VisitedEach phase arena (term :: rest)
      { standing := first.standing :: others.standing, arena := others.arena
        events := first.events ++ others.events }
      (fun other => if other.label = term.label then residue else residues other) := by
  rw [List.flatMap_cons] at hnodup
  have hterm_rest : ∀ other ∈ rest, ∀ id ∈ other.labels, id ∉ term.labels := by
    intro other hother id hid hmem
    exact List.disjoint_of_nodup_append hnodup hmem (List.mem_flatMap.mpr ⟨other, hother, hid⟩)
  have hself : (if term.label = term.label then residue else residues term) = residue :=
    if_pos rfl
  have hrest : ∀ other ∈ rest,
      (if other.label = term.label then residue else residues other) = residues other := by
    intro other hother
    apply if_neg
    intro heq
    exact hterm_rest other hother _ other.label_mem_labels (heq ▸ term.label_mem_labels)
  -- What became of the first term is new or was below it, so the other visits pass it by.
  have hout : ∀ id ∈ residue.term.labels, ∀ other ∈ rest, id ∉ other.labels := by
    intro id hid other hother hmem
    rcases hfirst.transition.labels id hid with hterm | hnew
    · exact hterm_rest other hother id hmem hterm
    · exact Nat.not_lt_of_le hnew (hinside other (List.mem_cons_of_mem _ hother) id hmem)
  have hframe : ∀ id ∈ residue.term.labels, others.arena.node id = first.arena.node id :=
    fun id hid => hothers.frame id (hfirst.transition.bears.inside id hid) (hout id hid)
  have hnew : ∀ other ∈ rest, ∀ id ∈ (residues other).term.labels,
      id ∈ other.labels ∨ arena.size ≤ id := by
    intro other hother id hid
    rcases hothers.labels other hother id hid with hmem | hle
    · exact Or.inl hmem
    · exact Or.inr (Nat.le_trans hfirst.transition.size_le hle)
  exact {
    toGrown := hfirst.transition.toGrown.trans hothers.toGrown
    standing := by
      rw [List.map_cons, hself]
      refine congrArg₂ List.cons hfirst.standing (hothers.standing.trans ?_)
      apply List.map_congr_left
      intro other hother
      rw [hrest other hother]
    events := by
      rw [List.flatMap_cons, hself]
      refine congrArg₂ List.append hfirst.events (hothers.events.trans ?_)
      apply List.flatMap_congr
      intro other hother
      rw [hrest other hother]
    bears := by
      intro other hother
      rcases List.mem_cons.mp hother with rfl | hother
      · rw [hself]
        exact hfirst.transition.bears.congr_node hframe hothers.size_le
      · rw [hrest other hother]
        exact hothers.bears other hother
    nodup := by
      rw [List.flatMap_cons, hself, List.flatMap_congr fun other hother => by rw [hrest other hother]]
      refine List.nodup_append'.mpr ⟨hfirst.transition.bears.nodup, hothers.nodup, ?_⟩
      intro id hid hmem
      obtain ⟨other, hother, hid'⟩ := List.mem_flatMap.mp hmem
      rcases hothers.labels other hother id hid' with hold | hlater
      · exact hout id hid other hother hold
      · exact Nat.not_lt_of_le hlater (hfirst.transition.bears.inside id hid)
    labels := by
      intro other hother
      rcases List.mem_cons.mp hother with rfl | hother
      · rw [hself]
        exact hfirst.transition.labels
      · rw [hrest other hother]
        exact hnew other hother
    frame := by
      intro id hid hforeign
      rw [hothers.frame id (Nat.lt_of_lt_of_le hid hfirst.transition.size_le)
          fun other hother => hforeign other (List.mem_cons_of_mem _ hother),
        hfirst.transition.frame id hid (hforeign term List.mem_cons_self)]
    linked := by
      intro other hother
      rcases List.mem_cons.mp hother with rfl | hother
      · rw [hself]
        exact hfirst.linked.congr_node hframe
      · rw [hrest other hother]
        exact hothers.linked other hother
    gone_label := by
      intro other hother
      rcases List.mem_cons.mp hother with rfl | hother
      · rw [hself]
        exact hfirst.gone_label
      · rw [hrest other hother]
        exact hothers.gone_label other hother
    image := by
      intro other hother κ f fresh hfresh
      rcases List.mem_cons.mp hother with rfl | hother
      · rw [hself]
        exact hfirst.image f fresh hfresh
      · rw [hrest other hother]
        refine hothers.image other hother f fresh ?_
        exact fun id hid => hfresh id (Nat.le_trans hfirst.transition.size_le hid) }

/-- If visits do to single terms what they should, so do they to siblings. -/
theorem exists_visitedEach {phase : Phase} {visit : Id → Arena → Visit} {terms : List (Term Id)}
    (hvisit : ∀ term ∈ terms, ∀ arena : Arena, arena.Bears term →
      ∃ residue, Visited phase arena term (visit term.label arena) residue)
    {arena : Arena} (hbears : ∀ term ∈ terms, arena.Bears term)
    (hnodup : (terms.flatMap Term.labels).Nodup) :
    ∃ residue, VisitedEach phase arena terms
      (arena.visitEach visit (terms.map Term.label)) residue := by
  induction terms generalizing arena with
  | nil => exact ⟨fun term => { term, gone := false, events := [] }, visitedEach_nil phase arena _⟩
  | cons term rest ih =>
      have hterm := hbears term List.mem_cons_self
      obtain ⟨residue, hfirst⟩ := hvisit term List.mem_cons_self arena hterm
      rw [List.flatMap_cons] at hnodup
      have hrest : ∀ other ∈ rest, (visit term.label arena).arena.Bears other := by
        intro other hother
        have hother_bears := hbears other (List.mem_cons_of_mem _ hother)
        refine hother_bears.congr_node ?_ hfirst.transition.size_le
        intro id hid
        apply hfirst.transition.frame id (hother_bears.inside id hid)
        intro hmem
        exact List.disjoint_of_nodup_append hnodup hmem
          (List.mem_flatMap.mpr ⟨other, hother, hid⟩)
      obtain ⟨residues, hothers⟩ :=
        ih (fun other hother => hvisit other (List.mem_cons_of_mem _ hother)) hrest
          (List.Nodup.of_append_right hnodup)
      refine ⟨fun other => if other.label = term.label then residue else residues other, ?_⟩
      exact visitedEach_cons (fun other hother => (hbears other hother).inside)
        (by rwa [List.flatMap_cons]) hfirst hothers

/-- Adoption links a node with its children, and below those the links were there before. -/
theorem linked_adopt {arena : Arena} {term : Term Id} (hbears : arena.Bears term)
    (hlinked : ∀ child ∈ term.children, arena.Linked child) :
    (arena.adopt term.label).Linked term := by
  have hnode := node_adopt arena hbears.children_inside
  rw [hbears.holds.children_eq] at hnode
  refine linked_iff.mpr ⟨?_, ?_⟩
  · intro child hchild
    rw [hnode, if_pos (List.mem_map_of_mem hchild)]
  · intro child hchild
    apply (hlinked child hchild).congr
    intro grandchild hgrandchild id hid
    rw [hnode, if_neg (Term.not_mem_map_label hbears.children_nodup hchild hgrandchild hid)]

/-! ## Writing the visited children back -/

namespace VisitedEach

variable {phase : Phase} {arena : Arena} {term : Term Id} {visits : Visits}
  {residue : Term Id → Residue Id}

theorem label_inside (hbears : arena.Bears term)
    (hvisits : VisitedEach phase arena term.children visits residue) :
    term.label < visits.arena.size :=
  Nat.lt_of_lt_of_le hbears.root_inside hvisits.size_le

/-- The node itself is not touched by the visits of its children. -/
theorem node_label (hbears : arena.Bears term)
    (hvisits : VisitedEach phase arena term.children visits residue) :
    visits.arena.node term.label = arena.node term.label :=
  hvisits.frame _ hbears.root_inside fun _ hchild => hbears.label_not_mem hchild

/-- A node does not come to stand below itself. -/
theorem label_not_mem (hbears : arena.Bears term)
    (hvisits : VisitedEach phase arena term.children visits residue) {child : Term Id}
    (hchild : child ∈ term.children) : term.label ∉ (residue child).term.labels := by
  intro hmem
  rcases hvisits.labels child hchild _ hmem with hbelow | hnew
  · exact hbears.label_not_mem hchild hbelow
  · exact Nat.not_lt_of_le hnew hbears.root_inside

theorem refill_eq (hbears : arena.Bears term)
    (hvisits : VisitedEach phase arena term.children visits residue) :
    (visits.arena.form term.label).refill visits.standing =
      (Term.rebuild term.label (term.form.map residue)).form.map Term.label := by
  rw [form, hvisits.node_label hbears, ← form, hbears.holds.form_eq, hvisits.standing, Term.children,
    Form.refill_map fun child hchild => hvisits.gone_label child hchild, Term.rebuild,
    Term.form_node, Form.prune_map, Form.map_map, Form.map_map]
  rfl

/-- What became of the children does not hold the node, so it is as the visits left it. -/
theorem node_setForm_of_mem (hbears : arena.Bears term)
    (hvisits : VisitedEach phase arena term.children visits residue) (form : Form Id)
    {child : Term Id} (hchild : child ∈ term.children) :
    ∀ id ∈ (residue child).term.labels,
      (visits.arena.setForm term.label form).node id = visits.arena.node id := by
  intro id hid
  rw [node_setForm visits.arena (hvisits.label_inside hbears), if_neg]
  rintro rfl
  exact hvisits.label_not_mem hbears hchild hid

theorem mem_labels_rebuild {id : Id}
    (hid : id ∈ (Term.rebuild term.label (term.form.map residue)).labels) :
    id = term.label ∨ ∃ child ∈ term.children, id ∈ (residue child).term.labels := by
  rw [Term.labels_eq, List.mem_cons] at hid
  rcases hid with rfl | hid
  · exact Or.inl rfl
  · obtain ⟨other, hother, hid⟩ := List.mem_flatMap.mp hid
    obtain ⟨child, hchild, rfl⟩ := Term.exists_of_mem_children_rebuild hother
    exact Or.inr ⟨child, hchild, hid⟩

theorem bears_rebuild (hbears : arena.Bears term)
    (hvisits : VisitedEach phase arena term.children visits residue) :
    (visits.arena.setForm term.label
      ((Term.rebuild term.label (term.form.map residue)).form.map Term.label)).Bears
        (Term.rebuild term.label (term.form.map residue)) where
  holds := by
    refine holds_iff.mpr ⟨?_, ?_⟩
    · have hlabel : (Term.rebuild term.label (term.form.map residue)).label = term.label := rfl
      rw [form, hlabel, node_setForm visits.arena (hvisits.label_inside hbears), if_pos rfl]
    · intro other hother
      obtain ⟨child, hchild, rfl⟩ := Term.exists_of_mem_children_rebuild hother
      exact ((hvisits.bears child hchild).congr_node (hvisits.node_setForm_of_mem hbears _ hchild)
        (Nat.le_of_eq (size_setForm _ _ _).symm)).holds
  nodup := by
    have hsublist := Form.children_prune_sublist (fun child => (residue child).gone) term.form
    rw [Term.labels_eq, Term.children_rebuild, List.flatMap_map, List.nodup_cons]
    refine ⟨?_, (hsublist.flatMap _).nodup hvisits.nodup⟩
    intro hmem
    obtain ⟨child, hchild, hid⟩ := List.mem_flatMap.mp hmem
    exact hvisits.label_not_mem hbears (hsublist.subset hchild) hid
  inside := by
    intro id hid
    rw [size_setForm]
    rcases mem_labels_rebuild hid with rfl | ⟨child, hchild, hid⟩
    · exact hvisits.label_inside hbears
    · exact (hvisits.bears child hchild).inside id hid

/-- Writing the visited children back puts the node together again from what became of them. -/
theorem transition_rebuild (hbears : arena.Bears term)
    (hvisits : VisitedEach phase arena term.children visits residue) :
    Transition arena term
      (visits.arena.setForm term.label
        ((Term.rebuild term.label (term.form.map residue)).form.map Term.label))
      (Term.rebuild term.label (term.form.map residue)) where
  toGrown := by
    apply hvisits.toGrown.trans
    refine Grown.of_size_eq (size_setForm _ _ _) ?_
    intro id
    rw [node_setForm visits.arena (hvisits.label_inside hbears)]
    split <;> rfl
  bears := hvisits.bears_rebuild hbears
  labels := by
    intro id hid
    rcases mem_labels_rebuild hid with rfl | ⟨child, hchild, hid⟩
    · exact Or.inl term.label_mem_labels
    · rcases hvisits.labels child hchild id hid with hbelow | hnew
      · exact Or.inl (Term.mem_labels_of_mem_children hchild hbelow)
      · exact Or.inr hnew
  frame := by
    intro id hid hout
    have hne : id ≠ term.label := by
      rintro rfl
      exact hout term.label_mem_labels
    rw [node_setForm visits.arena (hvisits.label_inside hbears), if_neg hne]
    apply hvisits.frame id hid
    intro child hchild hmem
    exact hout (Term.mem_labels_of_mem_children hchild hmem)
  parent := by
    have hlabel : (Term.rebuild term.label (term.form.map residue)).label = term.label := rfl
    rw [hlabel, node_setForm visits.arena (hvisits.label_inside hbears), if_pos rfl,
      hvisits.node_label hbears]

theorem linked_rebuild (hbears : arena.Bears term)
    (hvisits : VisitedEach phase arena term.children visits residue) :
    ∀ other ∈ (Term.rebuild term.label (term.form.map residue)).children,
      (visits.arena.setForm term.label
        ((Term.rebuild term.label (term.form.map residue)).form.map Term.label)).Linked other := by
  intro other hother
  obtain ⟨child, hchild, rfl⟩ := Term.exists_of_mem_children_rebuild hother
  exact (hvisits.linked child hchild).congr_node (hvisits.node_setForm_of_mem hbears _ hchild)

end VisitedEach

/-- How the visit of what is below a node answers to what becomes of the children's terms. -/
structure VisitedBelow (phase : Phase) (before : Arena) (term : Term Id) (visit : Visit)
    (residue : Term Id → Residue Id) : Prop where
  standing : visit.standing = some term.label
  events : visit.events = Term.eventsBelow (term.form.map residue)
  transition : Transition before term visit.arena (Term.rebuild term.label (term.form.map residue))
  linked : visit.arena.Linked (Term.rebuild term.label (term.form.map residue))
  image : ∀ child ∈ term.children, ∀ {κ : Type} (f : Id → κ) (fresh : κ),
    (∀ id, before.size ≤ id → f id = fresh) →
      (child.map f).visit phase fresh = (residue child).map f

theorem exists_visitedBelow {phase : Phase} {visit : Id → Arena → Visit} {term : Term Id}
    (hvisit : ∀ child ∈ term.children, ∀ arena : Arena, arena.Bears child →
      ∃ residue, Visited phase arena child (visit child.label arena) residue)
    {arena : Arena} (hbears : arena.Bears term) :
    ∃ residue, VisitedBelow phase arena term (arena.visitChildren visit term.label) residue := by
  obtain ⟨residue, hvisits⟩ := exists_visitedEach hvisit
    (fun child hchild => hbears.of_mem_children hchild) hbears.children_nodup
  rw [← hbears.holds.children_eq] at hvisits
  have htransition := hvisits.transition_rebuild hbears
  have hlinked := hvisits.linked_rebuild hbears
  rw [← hvisits.refill_eq hbears] at htransition hlinked
  refine ⟨residue, ?_⟩
  exact {
    standing := rfl
    events := by
      rw [Term.eventsBelow, Form.children_map, List.flatMap_map]
      exact hvisits.events
    transition := htransition.trans (transition_adopt htransition.bears)
    linked := linked_adopt htransition.bears hlinked
    image := hvisits.image }

/-- What became of a term below a node of the same label and of the terms below it, relabelled. -/
theorem VisitedBelow.map_eq {phase : Phase} {before : Arena} {term : Term Id} {visit : Visit}
    {residue : Term Id → Residue Id} (hvisited : VisitedBelow phase before term visit residue)
    {κ : Type} {f : Id → κ} {fresh : κ} (hfresh : ∀ id, before.size ≤ id → f id = fresh) :
    (term.map f).form.map (Term.visit phase fresh) = (term.form.map residue).map (Residue.map f) := by
  rw [Term.form_map, Form.map_map, Form.map_map]
  apply Form.map_congr
  intro child hchild
  exact hvisited.image child hchild f fresh hfresh

theorem visited_promotion {arena : Arena} {term : Term Id} {visit : Visit}
    {residue : Term Id → Residue Id}
    (hbelow : VisitedBelow .promotion arena term visit residue) :
    ∃ result, Visited .promotion arena term
      { visit.arena.offer .promotion term.label (arena.node term.label).parent with
        events := visit.events ++
          (visit.arena.offer .promotion term.label (arena.node term.label).parent).events }
      result := by
  have hbears := hbelow.transition.bears
  have hoffer := simulates_offer hbears .promotion
  have hlinked := linked_offer hbears hbelow.linked
  have hparent := hbelow.transition.parent
  have hlabel : (Term.rebuild term.label (term.form.map residue)).label = term.label := rfl
  rw [hparent, hlabel] at hoffer hlinked
  refine ⟨{ (Term.rebuild term.label (term.form.map residue)).offer .promotion visit.arena.size with
    events := Term.eventsBelow (term.form.map residue) ++
      ((Term.rebuild term.label (term.form.map residue)).offer .promotion visit.arena.size).events },
    ?_⟩
  exact {
    standing := hoffer.standing
    events := by rw [← hbelow.events, ← hoffer.events]
    transition := hbelow.transition.trans hoffer.transition
    linked := hlinked
    gone_label := by
      intro hgone
      exact (congrArg Term.label (Term.term_offer_of_gone hgone)).trans hlabel
    image := by
      intro κ f fresh hfresh
      have hnew : f visit.arena.size = fresh := hfresh _ hbelow.transition.size_le
      have hmap := hbelow.map_eq hfresh
      rw [Term.visit] at hmap ⊢
      rw [Term.promote_eq, hmap, Term.label_map, Term.map_rebuild, Term.eventsBelow_map, ← hnew,
        Term.map_offer]
      rfl }

theorem visited_normalization {arena : Arena} {term : Term Id} {offered below : Visit}
    {residue : Term Id → Residue Id}
    (hoffer : Simulates arena term offered (term.offer .normalization arena.size))
    (hstays : (term.offer .normalization arena.size).gone = false)
    (hbelow : VisitedBelow .normalization offered.arena
      (term.offer .normalization arena.size).term below residue) :
    ∃ result, Visited .normalization arena term
      { below with events := offered.events ++ below.events } result := by
  refine ⟨{
    term := Term.rebuild (term.offer .normalization arena.size).term.label
      ((term.offer .normalization arena.size).term.form.map residue)
    gone := false
    events := (term.offer .normalization arena.size).events ++
      Term.eventsBelow ((term.offer .normalization arena.size).term.form.map residue) }, ?_⟩
  exact {
    standing := hbelow.standing
    events := congrArg₂ List.append hoffer.events hbelow.events
    transition := hoffer.transition.trans hbelow.transition
    linked := hbelow.linked
    gone_label := fun hgone => nomatch hgone
    image := by
      intro κ f fresh hfresh
      have hnew : f arena.size = fresh := hfresh _ (Nat.le_refl _)
      have hmap := hbelow.map_eq fun id hid =>
        hfresh id (Nat.le_trans hoffer.transition.size_le hid)
      rw [Term.visit] at hmap ⊢
      have hoffered := Term.map_offer f .normalization arena.size term
      rw [hnew] at hoffered
      have hstays' : ((term.map f).offer .normalization fresh).gone = false := by
        rw [hoffered]
        exact hstays
      rw [Term.normalize_of_stays hstays', hoffered, Residue.map, hmap, Term.label_map,
        Term.map_rebuild, Term.eventsBelow_map]
      rfl }

theorem visited_normalization_of_gone {arena : Arena} {term : Term Id} {offered : Visit}
    (hoffer : Simulates arena term offered (term.offer .normalization arena.size))
    (hgone : (term.offer .normalization arena.size).gone = true) :
    Visited .normalization arena term offered (term.offer .normalization arena.size) := by
  have hterm := Term.term_offer_of_gone hgone
  exact {
    toSimulates := hoffer
    linked := by
      have hleaf : term.children = [] :=
        Normalization.children_of_isSeparator (Term.isSeparator_of_gone hgone)
      rw [hterm, linked_iff, hleaf]
      exact ⟨fun _ hchild => (nomatch hchild), fun _ hchild => (nomatch hchild)⟩
    gone_label := fun _ => congrArg Term.label hterm
    image := by
      intro κ f fresh hfresh
      have hoffered := Term.map_offer f .normalization arena.size term
      rw [hfresh _ (Nat.le_refl _)] at hoffered
      rw [Term.visit, Term.normalize_of_gone, hoffered]
      rw [hoffered]
      exact hgone }

theorem visit_normalization_succ (depth : Nat) (id : Id) (arena : Arena) :
    visit .normalization (depth + 1) id arena =
      match (arena.offer .normalization id (arena.node id).parent).standing with
      | none => arena.offer .normalization id (arena.node id).parent
      | some current =>
        let offered := arena.offer .normalization id (arena.node id).parent
        let below := offered.arena.visitChildren (visit .normalization depth) current
        { below with events := offered.events ++ below.events } :=
  rfl

theorem visit_promotion_succ (depth : Nat) (id : Id) (arena : Arena) :
    visit .promotion (depth + 1) id arena =
      let below := arena.visitChildren (visit .promotion depth) id
      { below.arena.offer .promotion id (arena.node id).parent with
        events := below.events ++
          (below.arena.offer .promotion id (arena.node id).parent).events } :=
  rfl

/-- The visit of a node that bears a term does to the arena what the visit of the term does to the
term, as long as the visit may go as deep as the term does. -/
theorem exists_visited (phase : Phase) {depth : Nat} {term : Term Id}
    (hdepth : term.labels.length ≤ depth) {arena : Arena} (hbears : arena.Bears term) :
    ∃ residue, Visited phase arena term (visit phase depth term.label arena) residue := by
  induction depth generalizing term arena with
  | zero =>
      rw [Term.labels_eq] at hdepth
      cases hdepth
  | succ depth ih =>
      cases phase with
      | normalization =>
          have hoffer := simulates_offer hbears .normalization
          rw [visit_normalization_succ]
          cases hgone : (term.offer .normalization arena.size).gone with
          | true =>
              have hstanding := hoffer.standing
              rw [hgone, if_pos rfl] at hstanding
              simp only [hstanding]
              exact ⟨_, visited_normalization_of_gone hoffer hgone⟩
          | false =>
              have hstanding := hoffer.standing
              rw [hgone, if_neg Bool.false_ne_true] at hstanding
              simp only [hstanding]
              have hless := (Term.labels_offer_sublist arena.size term).length_le
              obtain ⟨residue, hbelow⟩ := exists_visitedBelow
                (fun child hchild _ hchild_bears => ih (Nat.le_of_lt_succ (Nat.lt_of_lt_of_le
                  (Term.length_labels_lt_of_mem_children hchild) (Nat.le_trans hless hdepth)))
                  hchild_bears)
                hoffer.transition.bears
              exact visited_normalization hoffer hgone hbelow
      | promotion =>
          obtain ⟨residue, hbelow⟩ := exists_visitedBelow
            (fun child hchild _ hchild_bears => ih (Nat.le_of_lt_succ (Nat.lt_of_lt_of_le
              (Term.length_labels_lt_of_mem_children hchild) hdepth)) hchild_bears) hbears
          rw [visit_promotion_succ]
          exact visited_promotion hbelow

end AstPromotion.Arena
