import AstPromotion.Proofs.Reachable
import AstPromotion.Proofs.Shallow

/-! # Fields that cannot be vacated

A field of a construct that is neither optional nor a list keeps its occupant,
even one that a rule removes. What such a field retains is offered to the rules
again in every visit.
-/

namespace AstPromotion

namespace Form

variable {α β : Type}

/-- The occupants of the fields that are neither optional nor lists. -/
def required : Form α → List α
  | .leaf _ _ | .group _ _ => []
  | .functionLiteral _ parameters body => [parameters, body]
  | .classLiteral name _ body => [name, body]
  | .ifStatement test consequent _ => [test, consequent]
  | form => form.children

theorem required_map (f : α → β) (form : Form α) : (form.map f).required = form.required.map f := by
  cases form <;> rfl

theorem required_prune (gone : α → Bool) (form : Form α) :
    (form.prune gone).required = form.required := by
  cases form <;> rfl

theorem required_subset (form : Form α) : form.required ⊆ form.children := by
  cases form with
  | leaf | group => exact List.nil_subset _
  | functionLiteral => exact List.subset_append_right _ _
  | classLiteral name constructor body =>
      intro child hchild
      simp only [required, children, List.mem_cons, List.not_mem_nil, or_false, List.cons_append,
        List.mem_append] at hchild ⊢
      tauto
  | ifStatement test consequent alternate =>
      intro child hchild
      simp only [required, children, List.mem_cons, List.not_mem_nil, or_false] at hchild ⊢
      tauto
  | _ => exact List.Subset.refl _

/-- Only groups and leaves are without required fields. -/
theorem required_eq_nil_of_kind {form : Form α} {kind : GroupKind} (hkind : form.kind = .group kind) :
    form.required = [] := by
  obtain ⟨heading, items, rfl⟩ := exists_of_kind_group hkind
  rfl

variable {gone : α → Bool} {form : Form α} {child : α}

/-- A child that is not gone is still there after pruning. -/
theorem mem_children_prune (hchild : child ∈ form.children) (hstays : gone child = false) :
    child ∈ (form.prune gone).children := by
  cases form with
  | group heading items => exact List.mem_filter.mpr ⟨hchild, by rw [hstays]; rfl⟩
  | functionLiteral name parameters body =>
      cases name with
      | none => exact hchild
      | some name =>
          simp only [children, Option.toList_some, List.cons_append, List.nil_append,
            List.mem_cons, List.not_mem_nil, or_false] at hchild
          rcases hchild with rfl | rfl | rfl <;> simp [prune, children, Option.filter, hstays]
  | classLiteral name constructor body =>
      cases constructor with
      | none => exact hchild
      | some constructor =>
          simp only [children, Option.toList_some, List.cons_append, List.nil_append,
            List.mem_cons, List.not_mem_nil, or_false] at hchild
          rcases hchild with rfl | rfl | rfl <;> simp [prune, children, Option.filter, hstays]
  | ifStatement test consequent alternate =>
      cases alternate with
      | none => exact hchild
      | some alternate =>
          simp only [children, Option.toList_some, List.mem_cons, List.not_mem_nil,
            or_false] at hchild
          rcases hchild with rfl | rfl | rfl <;> simp [prune, children, Option.filter, hstays]
  | _ => exact hchild

/-- A child that is gone and still there after pruning stands in a required field. -/
theorem mem_required_of_gone (hchild : child ∈ (form.prune gone).children)
    (hgone : gone child = true) : child ∈ form.required := by
  cases form with
  | leaf => exact nomatch hchild
  | group heading items =>
      have hstays := (List.mem_filter.mp hchild).2
      rw [hgone] at hstays
      cases hstays
  | functionLiteral name parameters body =>
      cases name <;> simp [prune, children, required, Option.filter] at hchild ⊢ <;> grind
  | classLiteral name constructor body =>
      cases constructor <;> simp [prune, children, required, Option.filter] at hchild ⊢ <;> grind
  | ifStatement test consequent alternate =>
      cases alternate <;> simp [prune, children, required, Option.filter] at hchild ⊢ <;> grind
  | _ => exact hchild

end Form

namespace Term

variable {ι κ : Type} {property : Term ι → Prop} {term : Term ι}

/-- A required field of some construct in the term holds something with the property. -/
def Retains (property : Term ι → Prop) (term : Term ι) : Prop :=
  ∃ inner ∈ term.subterms, ∃ field ∈ inner.form.required, property field

theorem retains_iff :
    term.Retains property ↔ (∃ field ∈ term.form.required, property field) ∨
      ∃ child ∈ term.children, child.Retains property := by
  constructor
  · rintro ⟨inner, hinner, hfield⟩
    rcases mem_subterms_iff.mp hinner with rfl | ⟨child, hchild, hinner⟩
    · exact Or.inl hfield
    · exact Or.inr ⟨child, hchild, inner, hinner, hfield⟩
  · rintro (hfield | ⟨child, hchild, inner, hinner, hfield⟩)
    · exact ⟨term, term.mem_subterms_self, hfield⟩
    · exact ⟨inner, mem_subterms_of_mem_children hchild hinner, hfield⟩

theorem Retains.of_mem_children {child : Term ι} (hchild : child ∈ term.children)
    (hretains : child.Retains property) : term.Retains property :=
  retains_iff.mpr (Or.inr ⟨child, hchild, hretains⟩)

/-- In a group, only what is listed can retain anything. -/
theorem Retains.exists_of_kind {kind : GroupKind} (hretains : term.Retains property)
    (hkind : term.kind = .group kind) : ∃ child ∈ term.children, child.Retains property := by
  rcases retains_iff.mp hretains with ⟨field, hfield, -⟩ | hchild
  · rw [Form.required_eq_nil_of_kind hkind] at hfield
    cases hfield
  · exact hchild

theorem not_retains_of_leaf {kind : LeafKind} (hkind : term.kind = .leaf kind) :
    ¬ term.Retains property := by
  obtain ⟨value, hform⟩ := Form.exists_of_kind_leaf hkind
  rw [retains_iff, children, hform]
  rintro (⟨_, hfield, -⟩ | ⟨_, hchild, -⟩)
  · cases hfield
  · cases hchild

theorem not_retains_of_shallow (hshallow : term.Shallow) : ¬ term.Retains property := by
  rintro ⟨inner, hinner, field, hfield, -⟩
  have hinner : inner.Shallow := fun other hother => hshallow other (mem_subterms_trans hinner hother)
  rcases hinner.leaf_or_group with ⟨kind, value, hform⟩ | ⟨heading, items, hform⟩
  · rw [hform] at hfield
    cases hfield
  · rw [hform] at hfield
    cases hfield

theorem retains_map {f : ι → κ} {property : Term κ → Prop} :
    (term.map f).Retains property ↔ term.Retains fun field => property (field.map f) := by
  rw [Retains, Retains, subterms_map]
  constructor
  · rintro ⟨mapped, hmapped, field', hfield', hproperty⟩
    obtain ⟨inner, hinner, rfl⟩ := List.mem_map.mp hmapped
    rw [form_map, Form.required_map] at hfield'
    obtain ⟨field, hfield, rfl⟩ := List.mem_map.mp hfield'
    exact ⟨inner, hinner, field, hfield, hproperty⟩
  · rintro ⟨inner, hinner, field, hfield, hproperty⟩
    refine ⟨inner.map f, List.mem_map_of_mem hinner, field.map f, ?_, hproperty⟩
    rw [form_map, Form.required_map]
    exact List.mem_map_of_mem hfield

theorem kind_rebuild (label : ι) (form : Form (Term ι)) (visit : Term ι → Residue ι) :
    (rebuild label (form.map visit)).kind = form.kind := by
  rw [rebuild, kind_node, Form.kind_map, Form.kind_prune, Form.kind_map]

/-- A node that is removed matched a rule. -/
theorem events_ne_nil_of_gone {phase : Phase} {fresh : ι}
    (hgone : (term.offer phase fresh).gone = true) : (term.offer phase fresh).events ≠ [] := by
  cases hplan : phase.catalogue.plan? form term with
  | none =>
      rw [offer_of_none hplan] at hgone
      cases hgone
  | some planned =>
      rw [offer_of_some hplan]
      exact List.cons_ne_nil _ _

variable {visit : Term ι → Residue ι}

/-- What a node retains it still retains once its children have been visited, if visits keep what
is retained in place. -/
theorem Retains.rebuild (hretains : term.Retains property)
    (hfield : ∀ field, property field → property (visit field).term)
    (hchild : ∀ child ∈ term.children, child.Retains property →
      (visit child).gone = false ∧ (visit child).term.Retains property) :
    (rebuild term.label (term.form.map visit)).Retains property := by
  rcases retains_iff.mp hretains with ⟨field, hrequired, hproperty⟩ | ⟨child, hmem, hbelow⟩
  · refine retains_iff.mpr (Or.inl ⟨(visit field).term, ?_, hfield field hproperty⟩)
    rw [Term.rebuild, form_node, Form.required_map, Form.required_prune, Form.required_map,
      List.map_map]
    exact List.mem_map_of_mem hrequired
  · obtain ⟨hstays, hvisited⟩ := hchild child hmem hbelow
    refine hvisited.of_mem_children ?_
    rw [children_rebuild]
    exact List.mem_map_of_mem (Form.mem_children_prune hmem hstays)

/-- Where no required field retains what visits remove, the children that are left were kept, and
they retain nothing of it either. -/
theorem exists_kept_of_mem_children (hretains : ¬ term.Retains property)
    (hgone : ∀ child, (visit child).gone = true → property child) {other : Term ι}
    (hother : other ∈ (Term.rebuild term.label (term.form.map visit)).children) :
    ∃ child ∈ term.children, other = (visit child).term ∧ (visit child).gone = false ∧
      ¬ child.Retains property := by
  rw [children_rebuild] at hother
  obtain ⟨child, hchild, rfl⟩ := List.mem_map.mp hother
  have hmem := (Form.children_prune_sublist _ _).subset hchild
  refine ⟨child, hmem, rfl, ?_, fun hbelow => hretains (hbelow.of_mem_children hmem)⟩
  -- A child that was removed and is still there stands in a required field.
  by_contra hremoved
  rw [Bool.not_eq_false] at hremoved
  exact hretains (retains_iff.mpr
    (Or.inl ⟨child, Form.mem_required_of_gone hchild hremoved, hgone child hremoved⟩))

end Term

namespace Arena

/-- A required field of some construct that is reachable from the root holds a node with the
property. -/
def Retains (arena : Arena) (root : Id) (property : Id → Prop) : Prop :=
  ∃ id, arena.Reaches root id ∧ ∃ field ∈ (arena.form id).required, property field

/-- Where no node has required fields, nothing is retained. -/
theorem not_retains_of_required {arena : Arena} {root : Id} {property : Id → Prop}
    (hrequired : ∀ id < arena.size, (arena.form id).required = []) :
    ¬ arena.Retains root property := by
  rintro ⟨id, -, field, hfield, -⟩
  have hnone : (arena.form id).required = [] := by
    by_cases hinside : id < arena.size
    · exact hrequired id hinside
    · rw [form, arena.node_of_size_le (Nat.le_of_not_lt hinside)]
      rfl
  rw [hnone] at hfield
  cases hfield

/-- The arena retains below a node what the term that it bears there retains. -/
theorem Bears.retains_iff {arena : Arena} {term : Term Id} (hbears : arena.Bears term)
    {property : Id → Prop} {other : Term Id → Prop}
    (hproperty : ∀ inner ∈ term.subterms, property inner.label ↔ other inner) :
    arena.Retains term.label property ↔ term.Retains other := by
  have hfield {inner field : Term Id} (hinner : inner ∈ term.subterms)
      (hfield : field ∈ inner.form.required) : field ∈ term.subterms :=
    Term.mem_subterms_of_child_of_mem hinner (Form.required_subset _ hfield)
  constructor
  · rintro ⟨id, hreaches, occupant, hoccupant, hholds⟩
    obtain ⟨inner, hinner, rfl⟩ := List.mem_map.mp (hbears.reaches_iff.mp hreaches)
    rw [hbears.holds inner hinner, Form.required_map] at hoccupant
    obtain ⟨field, hrequired, rfl⟩ := List.mem_map.mp hoccupant
    exact ⟨inner, hinner, field, hrequired, (hproperty field (hfield hinner hrequired)).mp hholds⟩
  · rintro ⟨inner, hinner, field, hrequired, hholds⟩
    refine ⟨inner.label, hbears.reaches_iff.mpr (List.mem_map_of_mem hinner), field.label, ?_,
      (hproperty field (hfield hinner hrequired)).mpr hholds⟩
    rw [hbears.holds inner hinner, Form.required_map]
    exact List.mem_map_of_mem hrequired

end Arena

end AstPromotion
