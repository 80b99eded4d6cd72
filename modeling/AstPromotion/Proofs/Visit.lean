import AstPromotion.Proofs.Normalization.Step
import AstPromotion.Proofs.Promotion.Fields
import AstPromotion.Proofs.Term

/-! # Passes over terms

A visit of a term does what a visit of a node does, without an arena: there is
nothing to allocate, no parent to adopt and no depth to run out of. A node that
is built gets a given label. Relabelling commutes with what a rule makes of a node
and with writing back children, so neither depends on ids.
-/

namespace AstPromotion

/-- The containers are the groups that promotion keeps. -/
def Kind.isContainer : Kind → Bool
  | .group (.provisional _) => false
  | .group _ => true
  | _ => false

/-- What became of a visited term: its last state, whether it was removed, and the rewrites made
on the way. -/
structure Residue (ι : Type) where
  term : Term ι
  gone : Bool
  events : List Event

variable {ι κ : Type}

def Residue.map (f : ι → κ) (residue : Residue ι) : Residue κ :=
  { term := residue.term.map f, gone := residue.gone, events := residue.events }

namespace Term

/-- A leaf with its payload read; any other term as it is. -/
def withValue (value : Value) (term : Term ι) : Term ι :=
  node term.label (term.form.withValue value)

/-- A group with another list of children; any other term as it is. -/
def withItems (items : List (Term ι)) (term : Term ι) : Term ι :=
  node term.label (term.form.mapItems fun _ => items)

/-- A built form whose class body has been given another list of children, if it has been. -/
def relist : Option (Term ι × List (Term ι)) → Form (Term ι) → Form (Term ι)
  | some (_, items), .classLiteral name constructor body =>
    .classLiteral name constructor (body.withItems items)
  | _, form => form

/-- Carries out an edit planned for `subject`. -/
def enact (fresh : ι) (subject : Term ι) : Edit (Term ι) → Term ι × Change
  | .coerce value => (subject.withValue value, .inPlace)
  | .lift child => (child, .became child.kind)
  | .remove => (subject, .removed)
  | .build form relisted => (node fresh (relist relisted form), .became form.kind)

/-- Offers a term to the rules of a phase. -/
def offer (phase : Phase) (fresh : ι) (term : Term ι) : Residue ι :=
  match phase.catalogue.plan? form term with
  | none => { term, gone := false, events := [] }
  | some (rule, edit) =>
    let (result, change) := term.enact fresh edit
    { term := result, gone := change == .removed,
      events := [{ rule, subject := term.kind, change }] }

/-- A node put together again from what became of its children. -/
def rebuild (label : ι) (visited : Form (Residue ι)) : Term ι :=
  node label ((visited.prune (·.gone)).map (·.term))

/-- The rewrites made below a node, in the order they were made. -/
def eventsBelow (visited : Form (Residue ι)) : List Event :=
  visited.children.flatMap (·.events)

theorem offer_of_none {phase : Phase} {term : Term ι}
    (hplan : phase.catalogue.plan? form term = none) (fresh : ι) :
    term.offer phase fresh = { term, gone := false, events := [] } := by
  rw [offer, hplan]

theorem offer_of_some {phase : Phase} {term : Term ι} {rule : String} {edit : Edit (Term ι)}
    (hplan : phase.catalogue.plan? form term = some (rule, edit)) (fresh : ι) :
    term.offer phase fresh =
      { term := (term.enact fresh edit).1, gone := (term.enact fresh edit).2 == .removed,
        events := [{ rule, subject := term.kind, change := (term.enact fresh edit).2 }] } := by
  rw [offer, hplan]

/-- A term that is removed is left as it was. -/
theorem term_offer_of_gone {phase : Phase} {fresh : ι} {term : Term ι}
    (hgone : (term.offer phase fresh).gone = true) : (term.offer phase fresh).term = term := by
  cases hplan : phase.catalogue.plan? form term with
  | none => rw [offer_of_none hplan]
  | some planned =>
      obtain ⟨rule, edit⟩ := planned
      rw [offer_of_some hplan] at hgone ⊢
      cases edit with
      | remove => rfl
      | _ => cases hgone

/-- Normalization removes separators only. -/
theorem isSeparator_of_gone {fresh : ι} {term : Term ι}
    (hgone : (term.offer .normalization fresh).gone = true) :
    Normalization.isSeparator term.kind = true := by
  cases hplan : Phase.normalization.catalogue.plan? form term with
  | none =>
      rw [offer_of_none hplan] at hgone
      cases hgone
  | some planned =>
      obtain ⟨rule, edit⟩ := planned
      rw [offer_of_some hplan] at hgone
      cases Normalization.step_of_plan? hplan with
      | strip hsubject => exact hsubject
      | _ => cases hgone

@[simp] theorem label_withValue (value : Value) (term : Term ι) :
    (term.withValue value).label = term.label :=
  rfl

@[simp] theorem kind_withValue (value : Value) (term : Term ι) :
    (term.withValue value).kind = term.kind :=
  Form.kind_withValue value term.form

@[simp] theorem children_withValue (value : Value) (term : Term ι) :
    (term.withValue value).children = term.children :=
  Form.children_withValue value term.form

/-- Normalization only ever goes on with a term of the same or a smaller size. -/
theorem sizeOf_lt_of_mem_children_offer {fresh : ι} {term child : Term ι}
    (hchild : child ∈ (term.offer .normalization fresh).term.children) :
    sizeOf child < sizeOf term := by
  cases hplan : Phase.normalization.catalogue.plan? form term with
  | none =>
      rw [offer_of_none hplan] at hchild
      exact sizeOf_lt_of_mem hchild
  | some planned =>
      obtain ⟨rule, edit⟩ := planned
      rw [offer_of_some hplan] at hchild
      cases Normalization.step_of_plan? hplan with
      | coerce hform hread =>
          simp only [enact, children_withValue] at hchild
          exact sizeOf_lt_of_mem hchild
      | unwrap hsubject hchildren _ =>
          have hlifted : sizeOf _ < sizeOf term := sizeOf_lt_of_mem (hchildren ▸ List.mem_cons_self)
          exact Nat.lt_trans (sizeOf_lt_of_mem hchild) hlifted
      | unparenthesize hsubject hchildren _ _ _ =>
          have hlifted : sizeOf _ < sizeOf term := sizeOf_lt_of_mem
            (hchildren ▸ List.mem_cons_of_mem _ List.mem_cons_self)
          exact Nat.lt_trans (sizeOf_lt_of_mem hchild) hlifted
      | strip _ => exact sizeOf_lt_of_mem hchild

/-- Normalization goes on with a term that is the same or comes from below. -/
theorem labels_offer_sublist (fresh : ι) (term : Term ι) :
    (term.offer .normalization fresh).term.labels.Sublist term.labels := by
  cases hplan : Phase.normalization.catalogue.plan? form term with
  | none =>
      rw [offer_of_none hplan]
  | some planned =>
      obtain ⟨rule, edit⟩ := planned
      rw [offer_of_some hplan]
      cases Normalization.step_of_plan? hplan with
      | coerce hform hread =>
          rw [enact, labels_eq, labels_eq term, children_withValue, label_withValue]
      | unwrap hsubject hchildren _ =>
          apply labels_sublist_of_mem_children
          rw [children, hchildren]
          exact List.mem_cons_self
      | unparenthesize hsubject hchildren _ _ _ =>
          apply labels_sublist_of_mem_children
          rw [children, hchildren]
          exact List.mem_cons_of_mem _ List.mem_cons_self
      | strip _ => exact List.Sublist.refl _

/-- What holds of a term as soon as it holds of the terms its normalization goes on with holds of
every term. -/
@[elab_as_elim]
theorem induction_offer {motive : Term ι → Prop} (fresh : ι)
    (step : ∀ term : Term ι,
      (∀ child ∈ (term.offer .normalization fresh).term.children, motive child) → motive term)
    (term : Term ι) : motive term :=
  step term fun child _ => induction_offer fresh step child
termination_by term
decreasing_by exact sizeOf_lt_of_mem_children_offer ‹_›

/-- A normalization visit: the term is offered first, and the visit goes on below what stands in
its place. -/
def normalize (fresh : ι) (term : Term ι) : Residue ι :=
  let offered := term.offer .normalization fresh
  if offered.gone then offered
  else
    let visited := offered.term.form.attach.map fun child => normalize fresh child.1
    { term := rebuild offered.term.label visited, gone := false,
      events := offered.events ++ eventsBelow visited }
termination_by term
decreasing_by exact sizeOf_lt_of_mem_children_offer child.2

/-- A promotion visit: the term is offered last. -/
def promote (fresh : ι) (term : Term ι) : Residue ι :=
  let visited := term.form.attach.map fun child => promote fresh child.1
  let offered := (rebuild term.label visited).offer .promotion fresh
  { term := offered.term, gone := offered.gone, events := eventsBelow visited ++ offered.events }
termination_by term
decreasing_by exact sizeOf_lt_of_mem child.2

/-- A visit of a phase. -/
def visit : Phase → ι → Term ι → Residue ι
  | .normalization => normalize
  | .promotion => promote

theorem normalize_of_gone {fresh : ι} {term : Term ι}
    (hgone : (term.offer .normalization fresh).gone = true) :
    term.normalize fresh = term.offer .normalization fresh := by
  rw [normalize, if_pos hgone]

theorem normalize_of_stays {fresh : ι} {term : Term ι}
    (hstays : (term.offer .normalization fresh).gone = false) :
    term.normalize fresh =
      { term := rebuild (term.offer .normalization fresh).term.label
          ((term.offer .normalization fresh).term.form.map (normalize fresh))
        gone := false
        events := (term.offer .normalization fresh).events ++
          eventsBelow ((term.offer .normalization fresh).term.form.map (normalize fresh)) } := by
  rw [normalize, if_neg (Bool.eq_false_iff.mp hstays)]
  simp only [Form.map_attach]

theorem promote_eq (fresh : ι) (term : Term ι) :
    term.promote fresh =
      { term := ((rebuild term.label (term.form.map (promote fresh))).offer .promotion fresh).term
        gone := ((rebuild term.label (term.form.map (promote fresh))).offer .promotion fresh).gone
        events := eventsBelow (term.form.map (promote fresh)) ++
          ((rebuild term.label (term.form.map (promote fresh))).offer .promotion fresh).events } := by
  rw [promote]
  simp only [Form.map_attach]

/-! ## Containers -/

/-- No rule of either phase takes a container for its subject. -/
theorem offer_of_container (phase : Phase) (fresh : ι) {term : Term ι}
    (hkind : term.kind.isContainer = true) :
    term.offer phase fresh = { term, gone := false, events := [] } := by
  cases hplan : phase.catalogue.plan? form term with
  | none => exact offer_of_none hplan fresh
  | some planned =>
      exfalso
      obtain ⟨rule, edit⟩ := planned
      rw [kind] at hkind
      cases phase with
      | normalization =>
          cases Normalization.step_of_plan? hplan with
          | coerce hform hread =>
              rw [hform] at hkind
              cases hkind
          | unwrap hsubject _ _ =>
              revert hkind hsubject
              rw [Form.hasRole]
              generalize term.form.kind = kind
              revert kind
              decide
          | unparenthesize hsubject _ _ _ _ =>
              revert hkind hsubject
              rw [Form.hasRole]
              generalize term.form.kind = kind
              revert kind
              decide
          | strip hsubject =>
              revert hkind hsubject
              generalize term.form.kind = kind
              revert kind
              decide
      | promotion =>
          obtain ⟨grouping, hsubject⟩ :=
            Promotion.exists_kind_subject_of_step (Promotion.step_of_plan? hplan)
          rw [hsubject] at hkind
          cases hkind

/-- A container stays, and what is below it is visited. -/
theorem visit_of_container (phase : Phase) (fresh : ι) {term : Term ι}
    (hkind : term.kind.isContainer = true) :
    term.visit phase fresh =
      { term := rebuild term.label (term.form.map (visit phase fresh)), gone := false,
        events := eventsBelow (term.form.map (visit phase fresh)) } := by
  cases phase with
  | normalization =>
      have hoffer := offer_of_container .normalization fresh hkind
      rw [visit, normalize_of_stays (by rw [hoffer]), hoffer]
      rfl
  | promotion =>
      have hkind' : (rebuild term.label (term.form.map (promote fresh))).kind.isContainer = true := by
        rw [rebuild, kind_node, Form.kind_map, Form.kind_prune, Form.kind_map]
        exact hkind
      rw [visit, promote_eq, offer_of_container .promotion fresh hkind', List.append_nil]

/-! ## Relabelling -/

/-- Relabelling keeps what rules see. -/
theorem views_map (f : ι → κ) : Views form form (map f) fun _ => True where
  look_eq node _ := form_map f node
  closed _ _ _ _ := trivial

theorem map_withValue (f : ι → κ) (value : Value) (term : Term ι) :
    (term.withValue value).map f = (term.map f).withValue value := by
  rw [withValue, withValue, map_eq, label_map, form_map, label_node, form_node, Form.map_withValue]

theorem map_relist (f : ι → κ) (relisted : Option (Term ι × List (Term ι)))
    (form : Form (Term ι)) :
    (relist relisted form).map (map f) =
      relist (relisted.map fun (group, items) => (group.map f, items.map (map f)))
        (form.map (map f)) := by
  cases relisted with
  | none => rfl
  | some relisted =>
      cases form with
      | classLiteral name constructor body =>
          have hbody : (body.withItems relisted.2).map f =
              (body.map f).withItems (relisted.2.map (map f)) := by
            rw [withItems, map_eq, withItems, label_node, form_node, form_map, label_map]
            cases body.form <;> rfl
          simp only [relist, Form.map, Option.map_some, hbody]
      | _ => rfl

theorem map_enact (f : ι → κ) (fresh : ι) (subject : Term ι) (edit : Edit (Term ι)) :
    (subject.map f).enact (f fresh) (edit.map (map f)) =
      ((subject.enact fresh edit).1.map f, (subject.enact fresh edit).2) := by
  cases edit with
  | coerce value => simp only [Edit.map, enact, map_withValue]
  | lift child => simp only [Edit.map, enact, kind_map]
  | remove => rfl
  | build form relisted =>
      simp only [Edit.map, enact, map_eq f (node _ _), label_node, form_node, map_relist,
        Form.kind_map]

theorem map_offer (f : ι → κ) (phase : Phase) (fresh : ι) (term : Term ι) :
    (term.map f).offer phase (f fresh) = (term.offer phase fresh).map f := by
  have hview : phase.catalogue.plan? form (term.map f) = _ :=
    (views_map f).plan?_eq trivial phase.catalogue
  cases hplan : phase.catalogue.plan? form term with
  | none =>
      rw [hplan] at hview
      rw [offer_of_none hplan, offer_of_none hview]
      rfl
  | some planned =>
      obtain ⟨rule, edit⟩ := planned
      rw [hplan] at hview
      rw [offer_of_some hplan, offer_of_some hview, map_enact, kind_map]
      rfl

theorem children_rebuild (label : ι) (form : Form (Term ι)) (residue : Term ι → Residue ι) :
    (rebuild label (form.map residue)).children =
      (form.prune fun child => (residue child).gone).children.map fun child =>
        (residue child).term := by
  rw [rebuild, children_node, Form.prune_map, Form.map_map, Form.children_map]
  rfl

/-- The children of a rebuilt node are what became of children. -/
theorem exists_of_mem_children_rebuild {label : ι} {form : Form (Term ι)}
    {residue : Term ι → Residue ι} {other : Term ι}
    (hother : other ∈ (rebuild label (form.map residue)).children) :
    ∃ child ∈ form.children, other = (residue child).term := by
  rw [children_rebuild] at hother
  obtain ⟨child, hchild, rfl⟩ := List.mem_map.mp hother
  exact ⟨child, (Form.children_prune_sublist _ _).subset hchild, rfl⟩

theorem map_rebuild (f : ι → κ) (label : ι) (visited : Form (Residue ι)) :
    rebuild (f label) (visited.map (Residue.map f)) = (rebuild label visited).map f := by
  rw [rebuild, rebuild, map_eq, label_node, form_node, Form.prune_map, Form.map_map, Form.map_map]
  rfl

theorem eventsBelow_map (f : ι → κ) (visited : Form (Residue ι)) :
    eventsBelow (visited.map (Residue.map f)) = eventsBelow visited := by
  rw [eventsBelow, Form.children_map, List.flatMap_map, eventsBelow]
  rfl

end Term

end AstPromotion
