import AstPromotion.Proofs.Promotion.Contents
import AstPromotion.Proofs.Promotion.Precedence
import AstPromotion.Proofs.Required

/-! # Statements with nothing in them

Promotion removes a statement when nothing is left in it, which is what becomes
of a statement of such statements too. One in a required field stays and is
offered again in every visit; if there is none, a single visit leaves nothing to
promote.
-/

namespace AstPromotion

namespace Term

variable {ι κ : Type} {term : Term ι}

/-- A statement in which there are at most void statements. -/
inductive Void : Term ι → Prop
  | intro {term : Term ι} (hkind : term.kind = .group (.provisional .statement))
      (hchildren : ∀ child ∈ term.children, Void child) : Void term

theorem Void.kind_eq (hvoid : term.Void) : term.kind = .group (.provisional .statement) := by
  obtain ⟨hkind, -⟩ := hvoid
  exact hkind

theorem Void.of_mem_children {child : Term ι} (hvoid : term.Void) (hchild : child ∈ term.children) :
    child.Void := by
  obtain ⟨-, hchildren⟩ := hvoid
  exact hchildren child hchild

theorem void_map {f : ι → κ} : (term.map f).Void ↔ term.Void := by
  induction term using induction with
  | step term ih =>
      constructor
      · intro hvoid
        refine .intro (by rw [← kind_map f, hvoid.kind_eq]) fun child hchild => ?_
        refine (ih child hchild).mp (hvoid.of_mem_children ?_)
        rw [children_map]
        exact List.mem_map_of_mem hchild
      · intro hvoid
        refine .intro (by rw [kind_map, hvoid.kind_eq]) fun child hchild => ?_
        rw [children_map] at hchild
        obtain ⟨origin, horigin, rfl⟩ := List.mem_map.mp hchild
        exact (ih origin horigin).mpr (hvoid.of_mem_children horigin)

end Term

namespace Promotion

open Term (node rebuild Void)

variable {ι : Type} {fresh : ι} {term : Term ι}

/-- Only statements are removed. -/
theorem kind_of_step_remove {α : Type} {look : α → Form α} {subject : α}
    (hstep : Step look subject .remove) : (look subject).kind = grouping .statement := by
  generalize hedit : (Edit.remove : Edit α) = edit at hstep
  cases hstep with
  | dropEmpty hsubject _ => exact hsubject
  | classLiteral =>
      obtain ⟨form, relisted, hbuild⟩ := exists_planClass_eq look _ _
      rw [hbuild] at hedit
      cases hedit
  | _ => cases hedit

/-- What is removed is an empty statement. -/
theorem gone_offer_iff :
    (term.offer .promotion fresh).gone = true ↔
      term.kind = grouping .statement ∧ term.children = [] := by
  constructor
  · intro hgone
    cases hplan : Phase.promotion.catalogue.plan? Term.form term with
    | none =>
        rw [Term.offer_of_none hplan] at hgone
        cases hgone
    | some planned =>
        obtain ⟨rule, edit⟩ := planned
        rw [Term.offer_of_some hplan] at hgone
        have hstep := step_of_plan? hplan
        cases edit with
        | remove => exact ⟨kind_of_step_remove hstep, children_of_step_remove hstep⟩
        | _ => cases hgone
  · rintro ⟨hkind, hchildren⟩
    have hstep : Step Term.form term .remove := .dropEmpty hkind hchildren
    obtain ⟨rule, hplan⟩ := exists_plan?_of_step hstep fun _ heq => nomatch heq
    have hplan : Phase.promotion.catalogue.plan? Term.form term = some (rule, .remove) := hplan
    rw [Term.offer_of_some hplan]
    rfl

/-- Of all terms, promotion removes the void statements. -/
theorem gone_promote_iff : (term.promote fresh).gone = true ↔ term.Void := by
  induction term using Term.induction with
  | step term ih =>
      rw [Term.promote_eq, gone_offer_iff, Term.kind_rebuild, Term.children_rebuild, List.map_eq_nil_iff]
      constructor
      · rintro ⟨hkind, hchildren⟩
        refine .intro hkind fun child hchild => ?_
        -- A child that is not void would still be in the statement.
        by_contra hvoid
        have hstays : (child.promote fresh).gone = false :=
          Bool.eq_false_iff.mpr fun hgone => hvoid ((ih child hchild).mp hgone)
        have hmem : child ∈ (term.form.prune fun child => (child.promote fresh).gone).children :=
          Form.mem_children_prune hchild hstays
        rw [hchildren] at hmem
        cases hmem
      · intro hvoid
        refine ⟨hvoid.kind_eq, List.eq_nil_iff_forall_not_mem.mpr fun child hchild => ?_⟩
        have hmem := (Form.children_prune_sublist _ _).subset hchild
        have hrequired := Form.mem_required_of_gone hchild
          ((ih child hmem).mpr (hvoid.of_mem_children hmem))
        rw [Form.required_eq_nil_of_kind hvoid.kind_eq] at hrequired
        cases hrequired

/-- A visit of a void statement leaves it empty. -/
theorem promote_of_void (fresh : ι) (hvoid : term.Void) :
    (term.promote fresh).term.Void ∧ (term.promote fresh).events ≠ [] := by
  have hgone : (term.promote fresh).gone = true := gone_promote_iff.mpr hvoid
  rw [Term.promote_eq] at hgone ⊢
  obtain ⟨hkind, hchildren⟩ := gone_offer_iff.mp hgone
  constructor
  · rw [Term.term_offer_of_gone hgone]
    refine .intro hkind fun child hchild => ?_
    rw [hchildren] at hchild
    cases hchild
  · intro hidle
    exact Term.events_ne_nil_of_gone hgone (List.append_eq_nil_iff.mp hidle).2

/-! ## Void statements that are stuck -/

theorem not_retains_of_isDropped {property : Term ι → Prop}
    (hdropped : Term.SourceOrder.isDropped term = true) : ¬ term.Retains property := by
  obtain ⟨⟨kind, value, hform⟩, -⟩ := Term.SourceOrder.leaf_of_isDropped hdropped
  exact Term.not_retains_of_leaf (congrArg Form.kind hform)

/-- A function that is found to be a constructor is no statement. -/
theorem not_void_of_isFunctionNamed {word : String}
    (hnamed : isFunctionNamed Term.form word term = true) : ¬ term.Void := by
  intro hvoid
  have hkind := hvoid.kind_eq
  rw [isFunctionNamed] at hnamed
  split at hnamed
  next name parameters body hform =>
      rw [Term.kind, hform] at hkind
      cases hkind
  next => cases hnamed

/-- What a statement of a class body retains is still retained when the constructor in it has left
the body. -/
theorem retains_constructor {statement function : Term ι}
    (hfound : constructorOf? Term.form statement = some function)
    (hretains : statement.Retains Void) : function.Retains Void := by
  obtain ⟨rfl | hform, hnamed⟩ := eq_or_eq_of_constructorOf? hfound
  · exact hretains
  · rcases Term.retains_iff.mp hretains with ⟨field, hfield, hvoid⟩ | ⟨child, hchild, hbelow⟩
    · rw [hform] at hfield
      obtain rfl : field = function := List.mem_singleton.mp hfield
      exact absurd hvoid (not_void_of_isFunctionNamed hnamed)
    · rw [Term.children, hform] at hchild
      obtain rfl : child = function := List.mem_singleton.mp hchild
      exact hbelow

/-- A class whose constructor has left the body retains what the body retained. -/
theorem retains_of_extracted {name body function : Term ι} {items others : List (Term ι)}
    (hbody : body.form = .group .block items)
    (htaken : takeConstructor? Term.form items = some (function, others))
    (hretains : body.Retains Void) :
    (node fresh (.classLiteral name (some function) (body.withItems others))).Retains Void := by
  obtain ⟨before, statement, after, rfl, rfl, hfound, -⟩ := exists_of_takeConstructor? htaken
  have hkind : body.kind = .group .block := congrArg Form.kind hbody
  obtain ⟨item, hitem, hbelow⟩ := hretains.exists_of_kind hkind
  rw [Term.children, hbody, Form.children, List.mem_append, List.mem_cons] at hitem
  have hothers {other : Term ι} (hother : other ∈ before ++ after) (hbelow : other.Retains Void) :
      (node fresh (.classLiteral name (some function) (body.withItems (before ++ after)))).Retains
        Void := by
    have hrest : (body.withItems (before ++ after)).Retains Void := by
      refine hbelow.of_mem_children ?_
      rw [form_withItems hbody]
      exact hother
    exact hrest.of_mem_children (by simp [Form.children])
  -- The item still stands in the body, or it is the one that the constructor was taken from.
  rcases hitem with hitem | rfl | hitem
  · exact hothers (List.mem_append_left _ hitem) hbelow
  · exact (retains_constructor hfound hbelow).of_mem_children (by simp [Form.children])
  · exact hothers (List.mem_append_right _ hitem) hbelow

/-- The fields of a call that is opened up become required fields again. -/
theorem retains_of_opened {target mark value callee arguments : Term ι}
    (hchildren : term.children = [target, mark, value]) (htarget : target.form = .call callee arguments)
    (hmark : mark.kind = operatorKind .assignment)
    (hretains : ∃ child ∈ term.children, child.Retains Void) :
    (node fresh (.arrayIndexWrite callee arguments value)).Retains Void := by
  obtain ⟨child, hchild, hbelow⟩ := hretains
  rw [hchildren] at hchild
  simp only [List.mem_cons, List.not_mem_nil, or_false] at hchild
  rcases hchild with rfl | rfl | rfl
  · rcases Term.retains_iff.mp hbelow with ⟨field, hfield, hvoid⟩ | ⟨other, hother, hbelow⟩
    · refine Term.retains_iff.mpr (Or.inl ⟨field, ?_, hvoid⟩)
      rw [htarget] at hfield
      exact List.mem_append_left [value] hfield
    · refine hbelow.of_mem_children ?_
      rw [Term.children, htarget] at hother
      exact List.mem_append_left [value] hother
  · exact absurd hbelow (Term.not_retains_of_leaf hmark)
  · exact hbelow.of_mem_children (by simp [Form.children])

/-- What is built retains what the grouping retained: the children that are left out are leaves. -/
theorem retains_of_step {form : Form (Term ι)} {relisted : Option (Term ι × List (Term ι))}
    (hstep : Step Term.form term (.build form relisted)) (hretains : term.Retains Void) :
    (node fresh (Term.relist relisted form)).Retains Void := by
  obtain ⟨grouping, hkind⟩ := exists_kind_subject_of_step hstep
  have hretains := hretains.exists_of_kind hkind
  -- Only an index write takes a child apart, and only a class takes something out of a list.
  by_cases hopened : ∃ callee arguments value, form = .arrayIndexWrite callee arguments value
  · obtain ⟨callee, arguments, value, rfl⟩ := hopened
    obtain ⟨target, mark, hchildren, htarget, hmark⟩ := exists_of_step_indexWrite hstep
    have hwrite : (node fresh (.arrayIndexWrite callee arguments value)).Retains Void :=
      retains_of_opened hchildren htarget hmark hretains
    cases relisted <;> exact hwrite
  · obtain ⟨child, hchild, hbelow⟩ := hretains
    cases relisted with
    | none =>
        have hfilter := filter_children_of_step hstep fun callee arguments value heq =>
          hopened ⟨callee, arguments, value, heq⟩
        have hkept : child ∈ term.children.filter (!Term.SourceOrder.isDropped ·) := by
          refine List.mem_filter.mpr ⟨hchild, ?_⟩
          rw [Bool.not_eq_true', Bool.eq_false_iff]
          exact fun hdropped => not_retains_of_isDropped hdropped hbelow
        rw [hfilter] at hkept
        exact hbelow.of_mem_children (List.mem_filter.mp hkept).1
    | some relisted =>
        obtain ⟨word, name, opening, body, closing, items, function, others, hchildren, hword, hname,
          hbraced, hbody, htaken, rfl, rfl⟩ := exists_of_step_relisted hstep
        rw [Term.children, hchildren] at hchild
        simp only [List.mem_cons, List.not_mem_nil, or_false] at hchild
        rcases hchild with rfl | rfl | rfl | rfl | rfl
        · exact absurd hbelow (not_retains_of_isDropped (isDropped_of_keyword hword))
        · exact absurd hbelow (Term.not_retains_of_leaf hname)
        · exact absurd hbelow (Term.not_retains_of_leaf hbraced.opening)
        · exact retains_of_extracted hbody htaken hbelow
        · exact absurd hbelow (Term.not_retains_of_leaf hbraced.closing)

theorem retains_offer (fresh : ι) (hretains : term.Retains Void) :
    (term.offer .promotion fresh).gone = false ∧
      (term.offer .promotion fresh).term.Retains Void := by
  cases hplan : Phase.promotion.catalogue.plan? Term.form term with
  | none =>
      rw [Term.offer_of_none hplan]
      exact ⟨rfl, hretains⟩
  | some planned =>
      obtain ⟨rule, edit⟩ := planned
      have hstep := step_of_plan? hplan
      obtain ⟨grouping, hkind⟩ := exists_kind_subject_of_step hstep
      obtain ⟨child, hchild, hbelow⟩ := hretains.exists_of_kind hkind
      rw [Term.offer_of_some hplan]
      cases edit with
      | coerce value => exact absurd hstep not_step_coerce
      | lift lifted =>
          rw [Term.children, children_of_step_lift hstep, List.mem_singleton] at hchild
          subst hchild
          exact ⟨rfl, hbelow⟩
      | remove =>
          rw [Term.children, children_of_step_remove hstep] at hchild
          cases hchild
      | build form relisted => exact ⟨rfl, retains_of_step hstep hretains⟩

/-- A void statement in a required field is there to stay: every visit offers it again. -/
theorem retains_promote (fresh : ι) (hretains : term.Retains Void) :
    (term.promote fresh).gone = false ∧ (term.promote fresh).term.Retains Void ∧
      (term.promote fresh).events ≠ [] := by
  induction term using Term.induction with
  | step term ih =>
      have hrebuilt : (rebuild term.label (term.form.map (Term.promote fresh))).Retains Void := by
        refine hretains.rebuild ?_ ?_
        · exact fun field hvoid => (promote_of_void fresh hvoid).1
        · exact fun child hchild hbelow => ⟨(ih child hchild hbelow).1, (ih child hchild hbelow).2.1⟩
      obtain ⟨hstays, hoffered⟩ := retains_offer fresh hrebuilt
      -- Somewhere below, the visit is busy.
      have hbusy : ∃ child ∈ term.children, (child.promote fresh).events ≠ [] := by
        rcases Term.retains_iff.mp hretains with ⟨field, hfield, hvoid⟩ | ⟨child, hchild, hbelow⟩
        · exact ⟨field, Form.required_subset _ hfield, (promote_of_void fresh hvoid).2⟩
        · exact ⟨child, hchild, (ih child hchild hbelow).2.2⟩
      obtain ⟨child, hchild, hevents⟩ := hbusy
      rw [Term.promote_eq]
      refine ⟨hstays, hoffered, fun hidle => hevents ?_⟩
      exact Term.events_eq_nil_of_mem_children (List.append_eq_nil_iff.mp hidle).1 hchild

/-! ## Void statements that are not -/

/-- What the rules make of a node is settled if its children are: no rule matches what another has
built or lifted. -/
theorem settled_offer (hchildren : ∀ child ∈ term.children, child.Settled .promotion)
    (hstays : (term.offer .promotion fresh).gone = false) :
    (term.offer .promotion fresh).term.Settled .promotion := by
  cases hplan : Phase.promotion.catalogue.plan? Term.form term with
  | none =>
      rw [Term.offer_of_none hplan]
      exact Term.settled_iff.mpr ⟨hplan, hchildren⟩
  | some planned =>
      obtain ⟨grouping, hkind⟩ := exists_kind_subject_of_step (step_of_plan? hplan)
      obtain ⟨heading, items, hform⟩ := Form.exists_of_kind_group hkind
      rw [← term.node_eta, hform] at hstays ⊢
      refine (inductive_unmatched fresh).offer ?_ hstays
      rw [Term.children, hform] at hchildren
      exact hchildren

/-- If no required field holds a void statement, a visit leaves nothing to promote. -/
theorem settled_promote_of_not_retains (hretains : ¬ term.Retains Void)
    (hstays : (term.promote fresh).gone = false) :
    (term.promote fresh).term.Settled .promotion := by
  induction term using Term.induction with
  | step term ih =>
      rw [Term.promote_eq] at hstays ⊢
      refine settled_offer ?_ hstays
      intro other hother
      obtain ⟨child, hchild, rfl, hkept, hbelow⟩ :=
        Term.exists_kept_of_mem_children hretains (fun _ => gone_promote_iff.mp) hother
      exact ih child hchild hbelow hkept

end Promotion

end AstPromotion
