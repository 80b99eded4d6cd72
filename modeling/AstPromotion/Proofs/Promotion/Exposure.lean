import AstPromotion.Proofs.Normalization.Chains
import AstPromotion.Proofs.Promotion.Void
import AstPromotion.Proofs.Rejection

/-! # What promotion exposes to normalization

A statement that is unwrapped, or any other grouping that becomes a construct,
may turn the expression around it into a wrapper, which only another run of
normalization would lift. Where every grouping that stands directly in an
expression is an expression itself, there is nothing of the kind: promotion
leaves what normalization had settled as settled as it was.
-/

namespace AstPromotion

variable {ι κ : Type}

/-- Every grouping that stands directly in an expression is an expression itself. -/
def Term.Plain (term : Term ι) : Prop :=
  ∀ inner ∈ term.subterms, inner.form.hasRole .expression = true → ∀ child ∈ inner.children,
    child.form.hasRole .primitive = true → child.form.hasRole .expression = true

namespace Term

variable {term : Term ι}

theorem plain_iff :
    term.Plain ↔ (term.form.hasRole .expression = true → ∀ child ∈ term.children,
      child.form.hasRole .primitive = true → child.form.hasRole .expression = true) ∧
        ∀ child ∈ term.children, child.Plain :=
  forall_subterms_iff

theorem plain_of_leaf {kind : LeafKind} (hkind : term.kind = .leaf kind) : term.Plain := by
  obtain ⟨value, hform⟩ := Form.exists_of_kind_leaf hkind
  rw [plain_iff, children, hform]
  exact ⟨fun _ => List.forall_mem_nil _, List.forall_mem_nil _⟩

theorem plain_map {f : ι → κ} : (term.map f).Plain ↔ term.Plain := by
  rw [Plain, Plain, subterms_map, List.forall_mem_map]
  simp only [children_map, List.forall_mem_map, form_map, Form.hasRole, Form.kind_map]

end Term

namespace Normalization

open Term (rebuild)

variable {fresh : ι} {term : Term ι}

theorem plain_offer (fresh : ι) (hplain : term.Plain) :
    (term.offer .normalization fresh).term.Plain := by
  cases offered fresh term with
  | unmatched hplan hoffer =>
      rw [hoffer]
      exact hplain
  | read hform hread hterm hgone hevents =>
      rw [hterm]
      exact Term.plain_of_leaf rfl
  | lifted hsubject hchild hchildren hterm hgone hevents =>
      rw [hterm]
      exact (Term.plain_iff.mp hplain).2 _ (mem_children_of_lifted hchildren)
  | stripped hsubject hoffer =>
      obtain ⟨rule, subject, hoffer⟩ := hoffer
      rw [hoffer]
      exact hplain

/-- In the place of a child, normalization leaves no grouping but an expression if there was no
other. -/
theorem hasRole_expression_normalize (fresh : ι)
    (hplain : term.form.hasRole .primitive = true → term.form.hasRole .expression = true)
    (hprimitive : (term.normalize fresh).term.form.hasRole .primitive = true) :
    (term.normalize fresh).term.form.hasRole .expression = true := by
  rw [Form.hasRole, ← Term.kind] at hprimitive ⊢
  rcases kind_normalize fresh term with hsame | ⟨-, hoperand⟩
  · rw [hsame] at hprimitive ⊢
    exact hplain hprimitive
  · revert hprimitive hoperand
    generalize (term.normalize fresh).term.kind = kind
    revert kind
    decide

/-- Normalization keeps a term plain: what it puts in an expression may stand for a value. -/
theorem plain_normalize (fresh : ι) (hplain : term.Plain) :
    (term.normalize fresh).term.Plain := by
  induction term using Term.induction_offer fresh with
  | step term ih =>
      have hoffered := plain_offer fresh hplain
      cases hgone : (term.offer .normalization fresh).gone with
      | true =>
          rw [Term.normalize_of_gone hgone]
          exact hoffered
      | false =>
          obtain ⟨hroot, hbelow⟩ := Term.plain_iff.mp hoffered
          rw [Term.normalize_of_stays hgone]
          refine Term.plain_iff.mpr ⟨fun hrole other hother => ?_, fun other hother => ?_⟩
          · obtain ⟨child, hmem, rfl⟩ := Term.exists_of_mem_children_rebuild hother
            rw [Form.hasRole, ← Term.kind, Term.kind_rebuild] at hrole
            exact hasRole_expression_normalize fresh (hroot hrole child hmem)
          · obtain ⟨child, hmem, rfl⟩ := Term.exists_of_mem_children_rebuild hother
            exact ih child hmem (hbelow child hmem)

end Normalization

namespace Promotion

open Term (node rebuild relist remaining)

variable {fresh : ι} {term : Term ι}

/-- Only statements and temporary groupings are unwrapped. -/
theorem kind_of_step_lift {α : Type} {look : α → Form α} {subject child : α}
    (hstep : Step look subject (.lift child)) :
    (look subject).kind ∈ [grouping .statement, grouping .temporary] := by
  generalize hedit : (Edit.lift child : Edit α) = edit at hstep
  cases hstep with
  | unwrapIf hsubject =>
      rw [hsubject]
      exact List.mem_cons_self
  | unwrapSettled hsubject => exact hsubject
  | classLiteral =>
      obtain ⟨form, relisted, hbuild⟩ := exists_planClass_eq look _ _
      rw [hbuild] at hedit
      cases hedit
  | _ => cases hedit

/-- Promotion keeps the kind of a node that is no grouping, and makes a construct of an expression
that it changes. -/
theorem kind_promote (fresh : ι)
    (hplain : term.form.hasRole .primitive = true → term.form.hasRole .expression = true) :
    (term.promote fresh).term.kind = term.kind ∨
      term.form.hasRole .expression = true ∧
        ∃ built, (term.promote fresh).term.kind = .construct built := by
  have hkind := Term.kind_rebuild term.label term.form (Term.promote fresh)
  rw [Term.promote_eq]
  generalize rebuild term.label (term.form.map (Term.promote fresh)) = rebuilt at hkind ⊢
  cases hplan : Phase.promotion.catalogue.plan? Term.form rebuilt with
  | none =>
      rw [Term.offer_of_none hplan]
      exact Or.inl hkind
  | some planned =>
      obtain ⟨rule, edit⟩ := planned
      have hstep := step_of_plan? hplan
      obtain ⟨grouping, hsubject⟩ := exists_kind_subject_of_step hstep
      rw [← Term.kind, hkind] at hsubject
      have hrole := hplain (by rw [Form.hasRole, hsubject]; rfl)
      rw [Term.offer_of_some hplan]
      -- Groupings that are lifted or removed are no expressions, so something was built.
      cases edit with
      | coerce value => exact absurd hstep not_step_coerce
      | lift child =>
          have hlifted := kind_of_step_lift hstep
          rw [← Term.kind, hkind] at hlifted
          rw [Form.hasRole] at hrole
          simp only [List.mem_cons, List.not_mem_nil, or_false] at hlifted
          rcases hlifted with hlifted | hlifted <;> rw [hlifted] at hrole <;> cases hrole
      | remove =>
          have hremoved := kind_of_step_remove hstep
          rw [← Term.kind, hkind] at hremoved
          rw [Form.hasRole, hremoved] at hrole
          cases hrole
      | build form relisted =>
          obtain ⟨built, hbuilt⟩ := exists_kind_of_step hstep
          refine Or.inr ⟨hrole, built, ?_⟩
          rw [Term.enact, Term.kind_node, kind_relist (fields_of_step hstep), hbuilt]

section Kinds

variable (hplain : term.form.hasRole .primitive = true → term.form.hasRole .expression = true)

include hplain

theorem isOperand_of_promote (hoperand : (term.promote fresh).term.kind.isOperand = true) :
    term.kind.isOperand = true := by
  rcases kind_promote fresh hplain with hsame | ⟨hrole, -⟩
  · rwa [← hsame]
  · exact Normalization.isOperand_of_expression hrole

theorem hasRole_of_promote (hrole : (term.promote fresh).term.form.hasRole .expression = true) :
    term.form.hasRole .expression = true := by
  rcases kind_promote fresh hplain with hsame | ⟨hbefore, -⟩
  · rwa [Form.hasRole, ← Term.kind, hsame] at hrole
  · exact hbefore

theorem kind_of_promote {kind : LeafKind} (hkind : (term.promote fresh).term.kind = .leaf kind) :
    term.kind = .leaf kind := by
  rcases kind_promote fresh hplain with hsame | ⟨-, built, hbuilt⟩
  · rw [← hsame, hkind]
  · rw [hbuilt] at hkind
    cases hkind

/-- No statement means no void one. -/
theorem gone_promote_eq_false : (term.promote fresh).gone = false := by
  rw [Bool.eq_false_iff, Ne, gone_promote_iff]
  intro hvoid
  have hrole := hplain (by rw [Form.hasRole, ← Term.kind, hvoid.kind_eq]; rfl)
  rw [Form.hasRole, ← Term.kind, hvoid.kind_eq] at hrole
  cases hrole

end Kinds

/-- An expression that normalization does not match it does not match either once what is in it has
been promoted. -/
theorem normal_of_promoted {heading : Heading} {items : List (Term ι)} (label : ι)
    (hform : term.form = .group heading items)
    (hplan : Normalization.catalogue.plan? Term.form term = none)
    (hplain : term.form.hasRole .expression = true → ∀ child ∈ term.children,
      child.form.hasRole .primitive = true → child.form.hasRole .expression = true) :
    Normalization.catalogue.plan? Term.form
      (node label (.group heading (remaining (items.map (Term.promote fresh))))) = none := by
  have hchildren : term.children = items := by
    rw [Term.children, hform]
    rfl
  rw [hchildren] at hplain
  -- In an expression nothing was removed.
  have hremaining (hrole : term.form.hasRole .expression = true) :
      remaining (items.map (Term.promote fresh)) =
        items.map fun item => (item.promote fresh).term := by
    have hstays : ∀ residue ∈ items.map (Term.promote fresh), (!residue.gone) = true := by
      rw [List.forall_mem_map]
      intro item hitem
      rw [gone_promote_eq_false (hplain hrole item hitem)]
      rfl
    rw [remaining, List.filter_eq_self.mpr hstays, List.map_map]
    rfl
  have hrole_eq (items : List (Term ι)) : (node label (.group heading items)).form.hasRole
      .expression = term.form.hasRole .expression := by
    rw [hform]
    rfl
  -- What a rule looks at is what it looked at before the children were promoted.
  by_contra hmatched
  obtain ⟨⟨rule, edit⟩, hplanned⟩ := Option.ne_none_iff_exists'.mp hmatched
  cases Normalization.step_of_plan? hplanned with
  | coerce hleaf hread => cases hleaf
  | strip hsubject => cases heading <;> cases hsubject
  | unwrap hsubject hlifted hchild =>
      rw [hrole_eq] at hsubject
      rw [Term.form_node, Form.children, hremaining hsubject, List.map_eq_singleton_iff] at hlifted
      obtain ⟨item, rfl, rfl⟩ := hlifted
      have hoperand := isOperand_of_promote (hplain hsubject item List.mem_cons_self) hchild
      exact Normalization.plan?_ne_none_of_step (.unwrap hsubject hchildren hoperand) hplan
  | unparenthesize hsubject hlifted hopening hinner hclosing =>
      rw [hrole_eq] at hsubject
      rw [Term.form_node, Form.children, hremaining hsubject, List.map_eq_cons_iff] at hlifted
      obtain ⟨opening, _, rfl, rfl, hrest⟩ := hlifted
      obtain ⟨inner, _, rfl, rfl, hrest'⟩ := List.map_eq_cons_iff.mp hrest
      obtain ⟨closing, rfl, rfl⟩ := List.map_eq_singleton_iff.mp hrest'
      have hitem := hplain hsubject
      refine Normalization.plan?_ne_none_of_step (.unparenthesize hsubject hchildren ?_ ?_ ?_) hplan
      · exact kind_of_promote (hitem opening (by simp)) hopening
      · exact hasRole_of_promote (hitem inner (by simp)) hinner
      · exact kind_of_promote (hitem closing (by simp)) hclosing

/-- Nothing that promotion leaves and did not build matches a rule of normalization. -/
theorem normal_promote (hshallow : term.Shallow) (hplain : term.Plain)
    (hsettled : term.Settled .normalization) (hstays : (term.promote fresh).gone = false) :
    ∀ inner ∈ (term.promote fresh).term.subterms, (∃ built, inner.kind = .construct built) ∨
      Normalization.catalogue.plan? Term.form inner = none := by
  induction term using Term.induction with
  | step term ih =>
      obtain ⟨hplan, hbelow⟩ := Term.settled_iff.mp hsettled
      obtain ⟨hroot, hplain'⟩ := Term.plain_iff.mp hplain
      rcases hshallow.leaf_or_group with ⟨kind, value, hform⟩ | ⟨heading, items, hform⟩
      · rw [Term.promote_of_leaf hform]
        exact fun inner hinner => Or.inr (hsettled inner hinner)
      · obtain ⟨hterm, hgone⟩ := Term.promote_of_group hform fresh
        rw [hgone] at hstays
        rw [hterm]
        have hitems : ∀ item ∈ remaining (items.map (Term.promote fresh)), ∀ inner ∈ item.subterms,
            (∃ built, inner.kind = .construct built) ∨
              Normalization.catalogue.plan? Term.form inner = none := by
          intro item hitem
          obtain ⟨residue, hresidue, hkept, rfl⟩ := Term.mem_remaining.mp hitem
          obtain ⟨child, hchild, rfl⟩ := List.mem_map.mp hresidue
          have hchild : child ∈ term.children := by
            rw [Term.children, hform]
            exact hchild
          exact ih child hchild (hshallow.of_mem_children hchild) (hplain' child hchild)
            (hbelow child hchild) hkept
        refine forall_subterms_offer hitems ?_ ?_ ?_ hstays
        · exact fun _ => Or.inr (normal_of_promoted term.label hform hplan hroot)
        · intro label items others _ _
          have hidle : ((node label (.group .block others)).offer .normalization fresh).events =
              [] := by
            rw [Term.offer_of_container .normalization fresh rfl]
          exact Or.inr (Term.plan?_eq_none_of_events_eq_nil hidle)
        · intro form relisted hstep
          obtain ⟨built, hbuilt⟩ := exists_kind_of_step hstep
          exact Or.inl ⟨built, by rw [Term.kind_node, kind_relist (fields_of_step hstep), hbuilt]⟩

/-- Promotion exposes nothing in a plain term. -/
theorem settled_normalization_promote (hshallow : term.Shallow) (hplain : term.Plain)
    (hsettled : term.Settled .normalization) (hstays : (term.promote fresh).gone = false) :
    (term.promote fresh).term.Settled .normalization := by
  intro inner hinner
  rcases normal_promote hshallow hplain hsettled hstays inner hinner with ⟨built, hkind⟩ | hplan
  · have hprimitive : inner.form.hasRole .primitive = false := by
      rw [Form.hasRole, ← Term.kind, hkind]
      rfl
    have htyped := typed_promote hshallow hstays inner hinner
    exact Term.plan?_eq_none_of_accepted .normalization (Form.reason?_of_construct hkind none)
      (Term.firm_of_typed htyped hprimitive)
  · exact hplan

end Promotion

end AstPromotion
