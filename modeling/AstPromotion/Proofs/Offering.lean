import AstPromotion.Proofs.Building

/-! # Offering a node to the rules

What a node's offer to the rules does to an arena is what the offer of a term
does to the term that the arena bears there. The arena is left as it is outside
that term.
-/

namespace AstPromotion

/-- Whether what an edit puts in the place of a subject is the subject or comes from below it. -/
def Edit.IsLocal {α : Type} (look : α → Form α) (subject : α) : Edit α → Prop
  | .coerce _ => True
  | .lift child => child ∈ (look subject).children
  | .remove => True
  | .build form relisted => Promotion.Fields look subject form relisted

theorem isLocal_of_plan? {α : Type} {look : α → Form α} {subject : α} {phase : Phase}
    {rule : String} {edit : Edit α}
    (hplan : phase.catalogue.plan? look subject = some (rule, edit)) :
    edit.IsLocal look subject := by
  cases phase with
  | normalization =>
      cases Normalization.step_of_plan? hplan with
      | coerce _ _ => trivial
      | unwrap _ hchildren _ =>
          rw [Edit.IsLocal, hchildren]
          exact List.mem_cons_self
      | unparenthesize _ hchildren _ _ _ =>
          rw [Edit.IsLocal, hchildren]
          exact List.mem_cons_of_mem _ List.mem_cons_self
      | strip _ => trivial
  | promotion =>
      have hstep := Promotion.step_of_plan? hplan
      cases edit with
      | coerce value => trivial
      | remove => trivial
      | build form relisted => exact Promotion.fields_of_step hstep
      | lift child =>
          rw [Edit.IsLocal, Promotion.children_of_step_lift hstep]
          exact List.mem_cons_self

namespace Arena

/-- The arena in which a phase looks for a rule. -/
def prepare (arena : Arena) (phase : Phase) (subject : Id) : Arena :=
  match phase with
  | .normalization => arena.adopt subject
  | .promotion => arena

theorem enact_coerce (arena : Arena) (subject : Id) (value : Value) :
    arena.enact subject (.coerce value) =
      (.unchanged, arena.setForm subject ((arena.form subject).withValue value)) := by
  rw [enact]
  cases arena.form subject <;> rfl

/-- The arena once a group has been given a new list of children. -/
def regroup (arena : Arena) : Option (Id × List Id) → Arena
  | some (group, items) => arena.setForm group ((arena.form group).mapItems fun _ => items)
  | none => arena

theorem regroup_map (arena : Arena) (relisted : Option (Term Id × List (Term Id))) :
    arena.regroup (relisted.map fun given => (given.1.label, given.2.map Term.label)) =
      arena.relist relisted := by
  cases relisted <;> rfl

/-- Carries out an edit and says what then stands in the subject's place. -/
def carryOut (arena : Arena) (subject : Id) (parent : Option Id) (rule : String) : Edit Id → Visit
  | .coerce value =>
    let after := arena.setForm subject ((arena.form subject).withValue value)
    { standing := some subject, arena := after
      events := [{ rule, subject := after.kind subject, change := .inPlace }] }
  | .lift child =>
    { standing := some child, arena := arena.setParent child parent
      events := [{ rule, subject := arena.kind subject, change := .became (arena.kind child) }] }
  | .remove =>
    { standing := none, arena
      events := [{ rule, subject := arena.kind subject, change := .removed }] }
  | .build form relisted =>
    let base := arena.regroup relisted
    let after := (base.promote form).2.setBuildTime base.size 0
    { standing := some base.size, arena := after.setParent base.size parent
      events :=
        [{ rule, subject := after.kind subject, change := .became (after.kind base.size) }] }

theorem offer_eq (arena : Arena) (phase : Phase) (subject : Id) (parent : Option Id) :
    arena.offer phase subject parent =
      match phase.catalogue.plan? arena.form subject with
      | none =>
        { standing := some subject, arena := arena.prepare phase subject, events := [] }
      | some (rule, edit) =>
        (arena.prepare phase subject).carryOut subject parent rule edit := by
  have hform : (arena.prepare phase subject).form = arena.form := by
    cases phase with
    | normalization => exact arena.form_adopt subject
    | promotion => rfl
  have hrewrite : arena.rewrite phase subject =
      match phase.catalogue.plan? (arena.prepare phase subject).form subject with
      | none => (none, arena.prepare phase subject)
      | some (rule, edit) =>
        (some { rule, rewrite := ((arena.prepare phase subject).enact subject edit).1 },
          ((arena.prepare phase subject).enact subject edit).2) := by
    cases phase <;> rfl
  rw [offer, hrewrite, hform]
  cases phase.catalogue.plan? arena.form subject with
  | none => rfl
  | some planned =>
      obtain ⟨rule, edit⟩ := planned
      cases edit with
      | coerce value =>
          simp only [enact_coerce]
          rfl
      | build form relisted => cases relisted <;> rfl
      | _ => rfl

/-- How the visit of a node answers to what becomes of the term borne there. -/
structure Simulates (before : Arena) (term : Term Id) (visit : Visit) (residue : Residue Id) :
    Prop where
  standing : visit.standing = if residue.gone then none else some residue.term.label
  events : visit.events = residue.events
  transition : Transition before term visit.arena residue.term

variable {arena : Arena} {term : Term Id}

/-- A change that leaves the root in its place leaves it its kind. -/
theorem Transition.kind_eq {after : Arena} {result : Term Id}
    (htransition : Transition arena term after result) : after.kind result.label = result.kind :=
  htransition.bears.holds.kind_eq

theorem simulates_build (hbears : arena.Bears term) (rule : String) {form : Form (Term Id)}
    {relisted : Option (Term Id × List (Term Id))}
    (hfields : Promotion.Fields Term.form term form relisted) :
    Simulates arena term
      (arena.carryOut term.label (arena.node term.label).parent rule
        ((Edit.build form relisted).map Term.label))
      { term := .node arena.size (Term.relist relisted form), gone := false,
        events := [{ rule, subject := term.kind, change := .became form.kind }] } := by
  have hgathered := gathered_of_fields hbears hfields
  have htransition := hgathered.transition hbears
  have hchild := hgathered.children_inside hbears
  have hform : (Term.relist relisted form).map Term.label = form.map Term.label :=
    Term.map_label_relist hfields
  have hsize : (arena.relist relisted).size = arena.size := hgathered.size_eq
  rw [hform] at htransition hchild
  -- Setting the parent is the last step, so the kinds in the event are those of the result.
  have hafter (id : Id) : ((((arena.relist relisted).promote (form.map Term.label)).2).setBuildTime
      arena.size 0).kind id =
        ((arena.relist relisted).install (form.map Term.label)
          (arena.node term.label).parent).kind id := by
    rw [install, kind, kind, form_setParent, hsize]
  have hsubject : ((arena.relist relisted).install (form.map Term.label)
      (arena.node term.label).parent).kind term.label = term.kind := by
    have hinside : term.label < (arena.relist relisted).size := by
      rw [hsize]
      exact hbears.root_inside
    rw [kind_install hchild _ hinside, hgathered.kind, hbears.holds.kind_eq]
  have hbuilt : ((arena.relist relisted).install (form.map Term.label)
      (arena.node term.label).parent).kind arena.size = form.kind := by
    have hnew := htransition.kind_eq
    rwa [Term.label_node, Term.kind_node, ← Form.kind_map Term.label, hform, Form.kind_map] at hnew
  simp only [Edit.map, carryOut, regroup_map, hsize, hafter, hsubject, hbuilt]
  refine ⟨rfl, rfl, ?_⟩
  rw [install, hsize] at htransition
  exact htransition

theorem simulates_carryOut (hbears : arena.Bears term) (rule : String) {edit : Edit (Term Id)}
    (hlocal : edit.IsLocal Term.form term) :
    Simulates arena term
      (arena.carryOut term.label (arena.node term.label).parent rule (edit.map Term.label))
      { term := (term.enact arena.size edit).1, gone := (term.enact arena.size edit).2 == .removed,
        events := [{ rule, subject := term.kind, change := (term.enact arena.size edit).2 }] } := by
  have hkind : arena.kind term.label = term.kind := hbears.holds.kind_eq
  cases edit with
  | coerce value =>
      have htransition := transition_coerce hbears value
      refine ⟨rfl, ?_, htransition⟩
      have hafter := htransition.kind_eq
      rw [Term.label_withValue, Term.kind_withValue] at hafter
      simp only [Edit.map, carryOut, Term.enact, hafter]
  | lift child =>
      have hchild : arena.kind child.label = child.kind :=
        (hbears.of_mem_children hlocal).holds.kind_eq
      refine ⟨rfl, ?_, transition_lift hbears hlocal⟩
      simp only [Edit.map, carryOut, Term.enact, hkind, hchild]
  | remove =>
      refine ⟨rfl, ?_, Transition.refl hbears⟩
      simp only [Edit.map, carryOut, Term.enact, hkind]
  | build form relisted => exact simulates_build hbears rule hlocal

theorem Simulates.after {before middle : Arena} {term standing : Term Id} {visit : Visit}
    {residue : Residue Id} (htransition : Transition before term middle standing)
    (hsimulates : Simulates middle standing visit residue) :
    Simulates before term visit residue where
  standing := hsimulates.standing
  events := hsimulates.events
  transition := htransition.trans hsimulates.transition

/-- The rules see the same in the arena and in the term. -/
theorem plan?_form_eq (hholds : arena.Holds term) (phase : Phase) :
    phase.catalogue.plan? arena.form term.label =
      (phase.catalogue.plan? Term.form term).map fun (rule, edit) =>
        (rule, edit.map Term.label) :=
  hholds.views.plan?_eq term.mem_subterms_self phase.catalogue

theorem transition_prepare (hbears : arena.Bears term) (phase : Phase) :
    Transition arena term (arena.prepare phase term.label) term := by
  cases phase with
  | normalization => exact transition_adopt hbears
  | promotion => exact Transition.refl hbears

theorem size_prepare (arena : Arena) (phase : Phase) (subject : Id) :
    (arena.prepare phase subject).size = arena.size := by
  cases phase with
  | normalization => exact arena.size_adopt subject
  | promotion => rfl

/-- An offer to the rules of a phase does to the arena what it does to the term. -/
theorem simulates_offer (hbears : arena.Bears term) (phase : Phase) :
    Simulates arena term (arena.offer phase term.label (arena.node term.label).parent)
      (term.offer phase arena.size) := by
  have hprepare := transition_prepare hbears phase
  have hview := plan?_form_eq hbears.holds phase
  rw [offer_eq]
  cases hplan : phase.catalogue.plan? Term.form term with
  | none =>
      rw [hplan] at hview
      rw [hview, Term.offer_of_none hplan]
      exact ⟨rfl, rfl, hprepare⟩
  | some planned =>
      obtain ⟨rule, edit⟩ := planned
      rw [hplan] at hview
      rw [hview, Term.offer_of_some hplan]
      have hcarried := simulates_carryOut hprepare.bears rule (isLocal_of_plan? hplan)
      rw [hprepare.parent, size_prepare] at hcarried
      exact hcarried.after hprepare

/-- Promotion leaves what it puts in a node's place linked. -/
theorem linked_offer (hbears : arena.Bears term) (hlinked : arena.Linked term) :
    (arena.offer .promotion term.label (arena.node term.label).parent).arena.Linked
      (term.offer .promotion arena.size).term := by
  have hview := plan?_form_eq hbears.holds .promotion
  rw [offer_eq]
  cases hplan : Phase.promotion.catalogue.plan? Term.form term with
  | none =>
      rw [hplan] at hview
      rw [hview, Term.offer_of_none hplan]
      exact hlinked
  | some planned =>
      obtain ⟨rule, edit⟩ := planned
      have hlocal := isLocal_of_plan? hplan
      rw [hplan] at hview
      rw [hview, Term.offer_of_some hplan]
      cases edit with
      | coerce value => exact absurd (Promotion.step_of_plan? hplan) Promotion.not_step_coerce
      | lift child => exact linked_lift hbears hlinked hlocal
      | remove => exact hlinked
      | build form relisted =>
          have hgathered := gathered_of_fields hbears hlocal
          have hinstalled := hgathered.linked_install hbears hlinked
          rw [Term.map_label_relist hlocal, install, hgathered.size_eq] at hinstalled
          have hsize : (arena.relist relisted).size = arena.size := hgathered.size_eq
          simp only [Option.map_some, Edit.map, prepare, carryOut, regroup_map, hsize, Term.enact]
          exact hinstalled

end Arena

end AstPromotion
