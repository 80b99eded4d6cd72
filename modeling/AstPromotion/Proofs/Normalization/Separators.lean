import AstPromotion.Proofs.Normalization.Drafts
import AstPromotion.Proofs.Required

/-! # Where separators can be stuck

A visit strips every separator that it can. One in a required field stays where
it is and is offered again and again; if there is none, a single visit leaves no
separator anywhere.
-/

namespace AstPromotion

namespace Term

variable {ι : Type}

abbrev IsSeparator (term : Term ι) : Prop :=
  Normalization.isSeparator term.kind = true

/-- No separator is left anywhere in the term. -/
def Clean (term : Term ι) : Prop :=
  ∀ inner ∈ term.subterms, ¬ inner.IsSeparator

variable {term : Term ι}

theorem clean_iff :
    term.Clean ↔ ¬ term.IsSeparator ∧ ∀ child ∈ term.children, child.Clean :=
  forall_subterms_iff

theorem Clean.of_mem {inner : Term ι} (hclean : term.Clean) (hinner : inner ∈ term.subterms) :
    inner.Clean :=
  fun other hother => hclean other (mem_subterms_trans hinner hother)

theorem Clean.of_mem_children {child : Term ι} (hclean : term.Clean)
    (hchild : child ∈ term.children) : child.Clean :=
  (clean_iff.mp hclean).2 child hchild

theorem Clean.not_retains (hclean : term.Clean) : ¬ term.Retains IsSeparator := by
  rintro ⟨inner, hinner, field, hfield, hseparator⟩
  have hmem := mem_subterms_of_child_of_mem hinner (Form.required_subset _ hfield)
  exact hclean field hmem hseparator

end Term

namespace Normalization

open Term (node rebuild IsSeparator)

variable {ι : Type} {fresh : ι} {term : Term ι}

/-- What is put in an expression's place may stand where a value is expected; anything else keeps
its kind. -/
theorem kind_offer (fresh : ι) (term : Term ι) :
    (term.offer .normalization fresh).term.kind = term.kind ∨
      term.form.hasRole .expression = true ∧
        (term.offer .normalization fresh).term.kind.isOperand = true := by
  cases offered fresh term with
  | unmatched hplan hoffer => exact Or.inl (by rw [hoffer])
  | read hform hread hterm hgone hevents =>
      refine Or.inl ?_
      rw [hterm, Term.kind, Term.kind, hform]
      rfl
  | lifted hsubject hchild hchildren hterm hgone hevents => exact Or.inr ⟨hsubject, hterm ▸ hchild⟩
  | stripped hsubject hoffer =>
      obtain ⟨rule, subject, hoffer⟩ := hoffer
      exact Or.inl (by rw [hoffer])

theorem kind_normalize (fresh : ι) (term : Term ι) :
    (term.normalize fresh).term.kind = term.kind ∨
      term.form.hasRole .expression = true ∧ (term.normalize fresh).term.kind.isOperand = true := by
  cases hgone : (term.offer .normalization fresh).gone with
  | true =>
      rw [Term.normalize_of_gone hgone]
      exact kind_offer fresh term
  | false =>
      have hkind : (term.normalize fresh).term.kind =
          (term.offer .normalization fresh).term.kind := by
        rw [Term.normalize_of_stays hgone, Term.kind_rebuild, Term.kind]
      rw [hkind]
      exact kind_offer fresh term

theorem not_isSeparator_of_isOperand (hoperand : term.kind.isOperand = true) :
    ¬ term.IsSeparator := by
  revert hoperand
  rw [IsSeparator]
  generalize term.kind = kind
  revert kind
  decide

/-- Of all terms, normalization removes the separators. -/
theorem gone_normalize_iff : (term.normalize fresh).gone = true ↔ term.IsSeparator := by
  constructor
  · intro hgone
    cases hoffered : (term.offer .normalization fresh).gone with
    | true => exact Term.isSeparator_of_gone hoffered
    | false =>
        rw [Term.normalize_of_stays hoffered] at hgone
        cases hgone
  · exact gone_normalize_of_isSeparator

/-- A separator is offered and removed, and left as it was. -/
theorem normalize_of_isSeparator (fresh : ι) (hseparator : term.IsSeparator) :
    (term.normalize fresh).term = term ∧ (term.normalize fresh).events ≠ [] := by
  have hgone : (term.offer .normalization fresh).gone = true := by
    by_contra hstays
    have hremoved : (term.normalize fresh).gone = true := gone_normalize_iff.mpr hseparator
    rw [Term.normalize_of_stays (Bool.eq_false_iff.mpr hstays)] at hremoved
    cases hremoved
  rw [Term.normalize_of_gone hgone]
  exact ⟨Term.term_offer_of_gone hgone, Term.events_ne_nil_of_gone hgone⟩

/-! ## Separators that are stuck -/

/-- Beside a term that is lifted there are at most parentheses. -/
theorem eq_or_of_lifted {child other : Term ι}
    (hchildren : term.children = [child] ∨ ∃ opening closing,
      term.children = [opening, child, closing] ∧
        opening.kind = .leaf (.mark (.punctuation .leftParen)) ∧
          closing.kind = .leaf (.mark (.punctuation .rightParen)))
    (hother : other ∈ term.children) :
    other = child ∨ other.kind = leftParenKind ∨ other.kind = rightParenKind := by
  rcases hchildren with hchildren | ⟨opening, closing, hchildren, hopening, hclosing⟩
  · rw [hchildren, List.mem_singleton] at hother
    exact Or.inl hother
  · rw [hchildren] at hother
    simp only [List.mem_cons, List.not_mem_nil, or_false] at hother
    rcases hother with rfl | rfl | rfl
    · exact Or.inr (Or.inl hopening)
    · exact Or.inl rfl
    · exact Or.inr (Or.inr hclosing)

/-- What a term retains that gives way to a child, the child retains. -/
theorem retains_of_lifted {child : Term ι} (hoperand : child.kind.isOperand = true)
    (hbeside : ∀ other ∈ term.children,
      other = child ∨ other.kind = leftParenKind ∨ other.kind = rightParenKind)
    (hretains : term.Retains IsSeparator) : child.Retains IsSeparator := by
  rcases Term.retains_iff.mp hretains with ⟨field, hfield, hseparator⟩ | ⟨other, hother, hbelow⟩
  · rcases hbeside field (Form.required_subset _ hfield) with rfl | hkind | hkind
    · exact absurd hseparator (not_isSeparator_of_isOperand hoperand)
    · rw [IsSeparator, hkind] at hseparator
      cases hseparator
    · rw [IsSeparator, hkind] at hseparator
      cases hseparator
  · rcases hbeside other hother with rfl | hkind | hkind
    · exact hbelow
    · exact absurd hbelow (Term.not_retains_of_leaf hkind)
    · exact absurd hbelow (Term.not_retains_of_leaf hkind)

/-- What is put in a term's place retains the separators that the term retained. -/
theorem retains_offer (fresh : ι) (hretains : term.Retains IsSeparator) :
    (term.offer .normalization fresh).gone = false ∧
      (term.offer .normalization fresh).term.Retains IsSeparator := by
  cases offered fresh term with
  | unmatched hplan hoffer =>
      rw [hoffer]
      exact ⟨rfl, hretains⟩
  | @read kind text value hform hread hterm hgone hevents =>
      have hkind : term.kind = .leaf kind := congrArg Form.kind hform
      exact absurd hretains (Term.not_retains_of_leaf hkind)
  | lifted hsubject hchild hchildren hterm hgone hevents =>
      rw [hterm]
      exact ⟨hgone, retains_of_lifted hchild (fun _ => eq_or_of_lifted hchildren) hretains⟩
  | stripped hsubject hoffer =>
      -- A separator has no children to retain anything in.
      exfalso
      rcases Term.retains_iff.mp hretains with ⟨field, hfield, -⟩ | ⟨child, hchild, -⟩
      · have hmem := Form.required_subset _ hfield
        rw [children_of_isSeparator hsubject] at hmem
        cases hmem
      · rw [Term.children, children_of_isSeparator hsubject] at hchild
        cases hchild

/-- A separator in a required field is there to stay: every visit offers it again. -/
theorem retains_normalize (fresh : ι) (hretains : term.Retains IsSeparator) :
    (term.normalize fresh).gone = false ∧ (term.normalize fresh).term.Retains IsSeparator ∧
      (term.normalize fresh).events ≠ [] := by
  induction term using Term.induction_offer fresh with
  | step term ih =>
      obtain ⟨hstays, hoffered⟩ := retains_offer fresh hretains
      rw [events_normalize hstays, Term.normalize_of_stays hstays]
      refine ⟨rfl, hoffered.rebuild ?_ ?_, ?_⟩
      · intro field hseparator
        rwa [(normalize_of_isSeparator fresh hseparator).1]
      · exact fun child hchild hbelow => ⟨(ih child hchild hbelow).1, (ih child hchild hbelow).2.1⟩
      · -- Somewhere below, a visit is busy.
        have hbusy : ∃ child ∈ (term.offer .normalization fresh).term.children,
            (child.normalize fresh).events ≠ [] := by
          rcases Term.retains_iff.mp hoffered with
            ⟨field, hfield, hseparator⟩ | ⟨child, hchild, hbelow⟩
          · exact ⟨field, Form.required_subset _ hfield,
              (normalize_of_isSeparator fresh hseparator).2⟩
          · exact ⟨child, hchild, (ih child hchild hbelow).2.2⟩
        obtain ⟨child, hchild, hevents⟩ := hbusy
        intro hidle
        rw [List.append_eq_nil_iff, List.flatMap_eq_nil_iff] at hidle
        exact hevents (hidle.2 child hchild)

/-! ## Separators that are not -/

theorem not_retains_offer (fresh : ι) (hretains : ¬ term.Retains IsSeparator) :
    ¬ (term.offer .normalization fresh).term.Retains IsSeparator := by
  cases offered fresh term with
  | unmatched hplan hoffer =>
      rw [hoffer]
      exact hretains
  | read hform hread hterm hgone hevents =>
      rw [hterm]
      exact Term.not_retains_of_leaf rfl
  | lifted hsubject hchild hchildren hterm hgone hevents =>
      rw [hterm]
      exact fun hbelow => hretains (hbelow.of_mem_children (mem_children_of_lifted hchildren))
  | stripped hsubject hoffer =>
      obtain ⟨rule, subject, hoffer⟩ := hoffer
      rw [hoffer]
      exact hretains

/-- What a visit goes on with is no separator, unless it is removed. -/
theorem not_isSeparator_offer (hstays : (term.offer .normalization fresh).gone = false) :
    ¬ (term.offer .normalization fresh).term.IsSeparator := by
  cases offered fresh term with
  | unmatched hplan hoffer =>
      rw [hoffer]
      exact fun hseparator => plan?_ne_none_of_step (.strip hseparator) hplan
  | read hform hread hterm hgone hevents =>
      rw [hterm]
      exact fun hseparator => not_rough_of_readValue hread term.label (Or.inr hseparator)
  | lifted hsubject hchild hchildren hterm hgone hevents =>
      rw [hterm]
      exact not_isSeparator_of_isOperand hchild
  | stripped hsubject hoffer =>
      obtain ⟨rule, subject, hoffer⟩ := hoffer
      rw [hoffer] at hstays
      cases hstays

/-- If no required field holds a separator, a visit leaves none anywhere. -/
theorem clean_normalize (hretains : ¬ term.Retains IsSeparator)
    (hstays : (term.normalize fresh).gone = false) : (term.normalize fresh).term.Clean := by
  induction term using Term.induction_offer fresh with
  | step term ih =>
      cases hoffered : (term.offer .normalization fresh).gone with
      | true =>
          rw [Term.normalize_of_gone hoffered, hoffered] at hstays
          cases hstays
      | false =>
          have hretains' := not_retains_offer fresh hretains
          rw [Term.normalize_of_stays hoffered]
          refine Term.clean_iff.mpr ⟨?_, ?_⟩
          · rw [IsSeparator, Term.kind_rebuild, ← Term.kind]
            exact not_isSeparator_offer hoffered
          · intro other hother
            obtain ⟨child, hchild, rfl, hkept, hbelow⟩ :=
              Term.exists_kept_of_mem_children hretains' (fun _ => gone_normalize_iff.mp) hother
            exact ih child hchild hbelow hkept

/-- From then on, nothing is removed. -/
theorem gone_normalize_of_clean (fresh : ι) (hclean : term.Clean) :
    (term.normalize fresh).gone = false := by
  rw [Bool.eq_false_iff, Ne, gone_normalize_iff]
  exact (Term.clean_iff.mp hclean).1

theorem clean_normalize_of_clean (fresh : ι) (hclean : term.Clean) :
    (term.normalize fresh).term.Clean :=
  clean_normalize hclean.not_retains (gone_normalize_of_clean fresh hclean)

/-- Then the children of a visited node are its visited children, all of them. -/
theorem children_rebuild_of_clean (label fresh : ι) (hclean : term.Clean) :
    (rebuild label (term.form.map (Term.normalize fresh))).children =
      term.children.map fun child => (child.normalize fresh).term := by
  rw [Term.children_rebuild, Form.prune_eq_self, Term.children]
  exact fun child hchild => gone_normalize_of_clean fresh (hclean.of_mem_children hchild)

end Normalization

end AstPromotion
