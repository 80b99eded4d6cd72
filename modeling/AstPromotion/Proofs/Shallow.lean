import AstPromotion.Proofs.Visit
import Mathlib.Algebra.BigOperators.Group.List.Basic

/-! # Shallow terms

What a program is read as has leaves and groups only. Normalization keeps it so,
and promotion starts from it: no construct has a field yet that could not be
vacated, so a node that is removed is gone.
-/

namespace AstPromotion

/-- A quantity of what became of a term; there is none of what was removed. -/
def Residue.left {ι M : Type} [Zero M] (quantity : Term ι → M) (residue : Residue ι) : M :=
  if residue.gone then 0 else quantity residue.term

namespace Term

variable {ι : Type}

/-- No construct occurs in the term. -/
def Shallow (term : Term ι) : Prop :=
  ∀ inner ∈ term.subterms, ∀ built, inner.kind ≠ .construct built

theorem shallow_iff {term : Term ι} :
    term.Shallow ↔ (∀ built, term.kind ≠ .construct built) ∧ ∀ child ∈ term.children, child.Shallow :=
  forall_subterms_iff

theorem Shallow.of_mem_children {term child : Term ι} (hshallow : term.Shallow)
    (hchild : child ∈ term.children) : child.Shallow :=
  (shallow_iff.mp hshallow).2 child hchild

theorem shallow_map {κ : Type} {f : ι → κ} {term : Term ι} : (term.map f).Shallow ↔ term.Shallow := by
  rw [Shallow, Shallow, subterms_map, List.forall_mem_map]
  simp only [kind_map]

/-- A shallow term is a leaf or a group. -/
theorem Shallow.leaf_or_group {term : Term ι} (hshallow : term.Shallow) :
    (∃ kind value, term.form = .leaf kind value) ∨
      ∃ heading items, term.form = .group heading items := by
  have hkind := (shallow_iff.mp hshallow).1
  rw [kind] at hkind
  cases hform : term.form with
  | leaf kind value => exact Or.inl ⟨kind, value, rfl⟩
  | group heading items => exact Or.inr ⟨heading, items, rfl⟩
  | _ =>
      rw [hform] at hkind
      exact absurd rfl (hkind _)

theorem shallow_of_leaf {term : Term ι} {kind : LeafKind} {value : Value}
    (hform : term.form = .leaf kind value) : term.Shallow := by
  refine shallow_iff.mpr ⟨?_, ?_⟩
  · rw [Term.kind, hform]
    rintro built ⟨⟩
  · rw [children, hform]
    exact List.forall_mem_nil _

theorem shallow_of_group {term : Term ι} {heading : Heading} {items : List (Term ι)}
    (hform : term.form = .group heading items) (hitems : ∀ item ∈ items, item.Shallow) :
    term.Shallow := by
  refine shallow_iff.mpr ⟨?_, ?_⟩
  · rw [Term.kind, hform]
    rintro built ⟨⟩
  · rw [children, hform]
    exact hitems

/-- What is left of visited siblings. -/
def remaining (visited : List (Residue ι)) : List (Term ι) :=
  (visited.filter (!·.gone)).map (·.term)

theorem mem_remaining {visited : List (Residue ι)} {term : Term ι} :
    term ∈ remaining visited ↔ ∃ residue ∈ visited, residue.gone = false ∧ residue.term = term := by
  simp [remaining, and_assoc]

theorem remaining_cons (residue : Residue ι) (visited : List (Residue ι)) :
    remaining (residue :: visited) =
      if residue.gone then remaining visited else residue.term :: remaining visited := by
  rw [remaining, List.filter_cons]
  cases residue.gone <;> rfl

/-- What is left of visited siblings adds up to what is left of each. -/
theorem sum_remaining {M : Type} [AddMonoid M] (quantity : Term ι → M) (visited : List (Residue ι)) :
    ((remaining visited).map quantity).sum = (visited.map (Residue.left quantity)).sum := by
  induction visited with
  | nil => rfl
  | cons residue rest ih =>
      rw [remaining_cons, List.map_cons, List.sum_cons, Residue.left]
      cases residue.gone with
      | true => rw [if_pos rfl, if_pos rfl, ih, zero_add]
      | false =>
          rw [if_neg Bool.false_ne_true, if_neg Bool.false_ne_true, List.map_cons, List.sum_cons, ih]

/-- What is left of siblings adds up to what they did, if each visit keeps the quantity. -/
theorem sum_remaining_of_keeps {M : Type} [AddMonoid M] {quantity : Term ι → M}
    {visit : Term ι → Residue ι} {items : List (Term ι)}
    (hkeeps : ∀ item ∈ items, ((visit item).gone = true → quantity item = 0) ∧
      quantity (visit item).term = quantity item) :
    ((remaining (items.map visit)).map quantity).sum = (items.map quantity).sum := by
  rw [sum_remaining, List.map_map]
  refine congrArg List.sum (List.map_congr_left fun item hitem => ?_)
  obtain ⟨hgone, hkept⟩ := hkeeps item hitem
  rw [Function.comp_apply, Residue.left]
  split
  next h => exact (hgone h).symm
  next => exact hkept

theorem rebuild_of_leaf {form : Form (Term ι)} {kind : LeafKind} {value : Value}
    (hform : form = .leaf kind value) (label : ι) (visit : Term ι → Residue ι) :
    rebuild label (form.map visit) = node label (.leaf kind value) := by
  subst hform
  rfl

theorem rebuild_of_group {form : Form (Term ι)} {heading : Heading} {items : List (Term ι)}
    (hform : form = .group heading items) (label : ι) (visit : Term ι → Residue ι) :
    rebuild label (form.map visit) =
      node label (.group heading (remaining (items.map visit))) := by
  subst hform
  rfl

/-- What promotion sees of a group whose items were visited. -/
theorem promote_of_group {term : Term ι} {heading : Heading} {items : List (Term ι)}
    (hform : term.form = .group heading items) (fresh : ι) :
    (term.promote fresh).term =
        ((node term.label (.group heading (remaining (items.map (promote fresh))))).offer
          .promotion fresh).term ∧
      (term.promote fresh).gone =
        ((node term.label (.group heading (remaining (items.map (promote fresh))))).offer
          .promotion fresh).gone := by
  rw [promote_eq, rebuild_of_group hform]
  exact ⟨rfl, rfl⟩

/-- Leaves are not promoted. -/
theorem promote_of_leaf {term : Term ι} {kind : LeafKind} {value : Value}
    (hform : term.form = .leaf kind value) (fresh : ι) :
    term.promote fresh = { term, gone := false, events := [] } := by
  have hself : node term.label (.leaf kind value) = term := by
    rw [← hform, node_eta]
  have hoffer : term.offer .promotion fresh = { term, gone := false, events := [] } := by
    cases hplan : Phase.promotion.catalogue.plan? Term.form term with
    | none => exact offer_of_none hplan fresh
    | some planned =>
        obtain ⟨grouping, hsubject⟩ :=
          Promotion.exists_kind_subject_of_step (Promotion.step_of_plan? hplan)
        rw [hform] at hsubject
        cases hsubject
  rw [promote_eq, rebuild_of_leaf hform, hself, hoffer, hform]
  rfl

end Term

end AstPromotion
