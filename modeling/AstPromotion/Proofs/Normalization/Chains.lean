import AstPromotion.Proofs.Normalization.Separators
import AstPromotion.Proofs.Termination

/-! # Chains of wrappers

What a visit puts in a wrapper's place is not offered again before the next
visit, so of a chain of wrappers every other one is lifted. Once separators are
out of the way, each visit halves the longest chain, and a visit of a term
without wrappers to lift leaves it settled.
-/

namespace AstPromotion.Normalization

open Term (node rebuild IsSeparator)

variable {ι : Type} {fresh : ι} {term : Term ι}

/-- A term that can be lifted a number of times in a row. -/
inductive Nested : Nat → Term ι → Prop
  | zero (term : Term ι) : Nested 0 term
  | succ {depth : Nat} {term child : Term ι} (hstep : Step Term.form term (.lift child))
      (hchild : Nested depth child) : Nested (depth + 1) term

/-- No node of the term can be lifted more often in a row than the bound says. -/
def NestedAtMost (bound : Nat) (term : Term ι) : Prop :=
  ∀ inner ∈ term.subterms, ∀ depth, Nested depth inner → depth ≤ bound

/-- What is lifted is a child of an expression. -/
theorem mem_children_of_step {child : Term ι} (hstep : Step Term.form term (.lift child)) :
    term.form.hasRole .expression = true ∧ child ∈ term.children := by
  cases hstep with
  | unwrap hsubject hchildren hchild =>
      refine ⟨hsubject, ?_⟩
      rw [Term.children, hchildren]
      exact List.mem_cons_self
  | unparenthesize hsubject hchildren hopening hinner hclosing =>
      refine ⟨hsubject, ?_⟩
      rw [Term.children, hchildren]
      exact List.mem_cons_of_mem _ List.mem_cons_self

theorem step_of_lifted {child : Term ι} (hsubject : term.form.hasRole .expression = true)
    (hchild : child.kind.isOperand = true)
    (hchildren : term.children = [child] ∨ ∃ opening closing,
      term.children = [opening, child, closing] ∧ opening.kind = leftParenKind ∧
        closing.kind = rightParenKind)
    (hinner : term.children ≠ [child] → child.form.hasRole .expression = true) :
    Step Term.form term (.lift child) := by
  rcases hchildren with hsole | ⟨opening, closing, hchildren, hopening, hclosing⟩
  · exact .unwrap hsubject hsole hchild
  · have hnot_sole : term.children ≠ [child] := by
      rw [hchildren]
      simp
    exact .unparenthesize hsubject hchildren hopening (hinner hnot_sole) hclosing

theorem not_nested_of_leaf {kind : LeafKind} {depth : Nat} (hkind : term.kind = .leaf kind) :
    ¬ Nested (depth + 1) term := by
  rintro ⟨hstep, -⟩
  have hrole := (mem_children_of_step ‹_›).1
  rw [Form.hasRole, ← Term.kind, hkind, hasRole_of_leaf] at hrole
  cases hrole

/-! ## Chains and wrappers -/

theorem wrappers_le_of_mem_children {child : Term ι} (hchild : child ∈ term.children) :
    child.wrappers + (if term.form.hasRole .expression then 1 else 0) ≤ term.wrappers := by
  rw [Term.wrappers_eq term]
  exact Nat.add_le_add_right (List.le_sum_of_mem (List.mem_map_of_mem hchild)) _

theorem wrappers_le_of_mem_subterms {inner : Term ι} (hinner : inner ∈ term.subterms) :
    inner.wrappers ≤ term.wrappers := by
  induction term using Term.induction with
  | step term ih =>
      rcases Term.mem_subterms_iff.mp hinner with rfl | ⟨child, hchild, hmem⟩
      · exact Nat.le_refl _
      · have hle := wrappers_le_of_mem_children hchild
        exact (ih child hchild hmem).trans (Nat.le_of_add_right_le hle)

/-- Every lift of a chain takes a wrapper away. -/
theorem Nested.le_wrappers {depth : Nat} (hnested : Nested depth term) : depth ≤ term.wrappers := by
  induction hnested with
  | zero term => exact Nat.zero_le _
  | succ hstep _ ih =>
      obtain ⟨hrole, hchild⟩ := mem_children_of_step hstep
      have hle := wrappers_le_of_mem_children hchild
      rw [if_pos hrole] at hle
      exact (Nat.succ_le_succ ih).trans hle

theorem nestedAtMost_wrappers (term : Term ι) : NestedAtMost term.wrappers term :=
  fun _ hinner _ hnested => hnested.le_wrappers.trans (wrappers_le_of_mem_subterms hinner)

theorem NestedAtMost.mono {bound more : Nat} (hnested : NestedAtMost bound term)
    (hle : bound ≤ more) : NestedAtMost more term :=
  fun inner hinner depth hdepth => (hnested inner hinner depth hdepth).trans hle

/-- No visit makes wrappers. -/
theorem wrappers_normalize_le (fresh : ι) (term : Term ι) :
    (term.normalize fresh).term.wrappers ≤ term.wrappers := by
  induction term using Term.induction_offer fresh with
  | step term ih =>
      have hoffer := wrappers_offer fresh term
      cases hgone : (term.offer .normalization fresh).gone with
      | true =>
          rw [Term.normalize_of_gone hgone]
          omega
      | false =>
          rw [Term.normalize_of_stays hgone]
          generalize (term.offer .normalization fresh).term = next at ih hoffer
          have hbelow : (rebuild next.label (next.form.map (Term.normalize fresh))).wrappers ≤
              next.wrappers := by
            have hkind := Term.kind_rebuild next.label next.form (Term.normalize fresh)
            rw [Term.wrappers_eq, Term.wrappers_eq next, Form.hasRole, ← Term.kind, hkind,
              ← Form.hasRole, Term.children_rebuild, List.map_map]
            refine Nat.add_le_add_right ?_ _
            calc _ ≤ (next.children.map (Term.wrappers ∘ fun child =>
                    (child.normalize fresh).term)).sum :=
                  ((Form.children_prune_sublist _ _).map _).sum_le_sum fun _ _ => Nat.zero_le _
              _ ≤ (next.children.map Term.wrappers).sum := List.sum_le_sum ih
          exact hbelow.trans (hoffer ▸ Nat.le_add_right _ _)

/-! ## Halving -/

theorem isOperand_of_expression {form : Form (Term ι)} (hrole : form.hasRole .expression = true) :
    form.kind.isOperand = true := by
  rw [Kind.isOperand, Bool.or_eq_true]
  exact Or.inl hrole

theorem kind_of_kind_normalize {kind : Kind} (hkind : (term.normalize fresh).term.kind = kind)
    (hoperand : kind.isOperand = false) : term.kind = kind := by
  rcases kind_normalize fresh term with hsame | ⟨-, hother⟩
  · rw [← hsame, hkind]
  · rw [hkind, hoperand] at hother
    cases hother

theorem isOperand_of_normalize (hoperand : (term.normalize fresh).term.kind.isOperand = true) :
    term.kind.isOperand = true := by
  rcases kind_normalize fresh term with hsame | ⟨hrole, -⟩
  · rwa [← hsame]
  · exact isOperand_of_expression hrole

theorem hasRole_of_normalize (hrole : (term.normalize fresh).term.form.hasRole .expression = true) :
    term.form.hasRole .expression = true := by
  rcases kind_normalize fresh term with hsame | ⟨hbefore, -⟩
  · rwa [Form.hasRole, ← Term.kind, hsame] at hrole
  · exact hbefore

/-- What can be lifted once its children have been visited could be lifted before. -/
theorem exists_step_of_rebuild (hclean : term.Clean) {lifted : Term ι}
    (hstep : Step Term.form (rebuild term.label (term.form.map (Term.normalize fresh)))
      (.lift lifted)) :
    ∃ child, Step Term.form term (.lift child) ∧ lifted = (child.normalize fresh).term := by
  have hchildren_eq := children_rebuild_of_clean term.label fresh hclean
  have hrole_eq (role : Role) : (rebuild term.label (term.form.map (Term.normalize fresh))).form.hasRole
      role = term.form.hasRole role := by
    rw [Form.hasRole, ← Term.kind, Term.kind_rebuild, Form.hasRole]
  cases hstep with
  | unwrap hsubject hchildren hchild =>
      rw [← Term.children, hchildren_eq, List.map_eq_singleton_iff] at hchildren
      obtain ⟨child, hchildren, rfl⟩ := hchildren
      rw [hrole_eq] at hsubject
      exact ⟨child, .unwrap hsubject hchildren (isOperand_of_normalize hchild), rfl⟩
  | unparenthesize hsubject hchildren hopening hinner hclosing =>
      rw [← Term.children, hchildren_eq, List.map_eq_cons_iff] at hchildren
      obtain ⟨opening, _, hchildren, rfl, hrest⟩ := hchildren
      obtain ⟨inner, _, rfl, rfl, hrest'⟩ := List.map_eq_cons_iff.mp hrest
      obtain ⟨closing, rfl, rfl⟩ := List.map_eq_singleton_iff.mp hrest'
      rw [hrole_eq] at hsubject
      exact ⟨inner, .unparenthesize hsubject hchildren (kind_of_kind_normalize hopening rfl)
        (hasRole_of_normalize hinner) (kind_of_kind_normalize hclosing rfl), rfl⟩

/-- A visit at least halves a chain. If it only goes on below the first wrapper, that one is left
over. -/
theorem nested_of_normalize (fresh : ι) (hclean : term.Clean) :
    (∀ depth, Nested depth (term.normalize fresh).term → Nested (2 * depth) term) ∧
      ∀ depth, Nested (depth + 1) (rebuild term.label (term.form.map (Term.normalize fresh))) →
        Nested (2 * depth + 1) term := by
  induction term using Term.induction with
  | step term ih =>
      -- Below the top every child is visited in full, so the first part holds of it.
      have hbelow : ∀ depth,
          Nested (depth + 1) (rebuild term.label (term.form.map (Term.normalize fresh))) →
            Nested (2 * depth + 1) term := by
        rintro depth (_ | ⟨hstep, hnested⟩)
        obtain ⟨child, hlift, rfl⟩ := exists_step_of_rebuild hclean hstep
        have hchild := (mem_children_of_step hlift).2
        exact .succ hlift ((ih child hchild (hclean.of_mem_children hchild)).1 depth hnested)
      refine ⟨?_, hbelow⟩
      intro depth hnested
      have hstays := gone_normalize_of_clean fresh hclean
      cases depth with
      | zero => exact .zero term
      | succ depth =>
          cases offered fresh term with
          | unmatched hplan hoffer =>
              rw [Term.normalize_of_stays (by rw [hoffer]), hoffer] at hnested
              cases hbelow depth hnested with
              | succ hlift _ => exact absurd hplan (plan?_ne_none_of_step hlift)
          | @read kind _ _ hform hread hterm hgone hevents =>
              rw [Term.normalize_of_stays hgone] at hnested
              have hkind : (rebuild (term.offer .normalization fresh).term.label
                  ((term.offer .normalization fresh).term.form.map (Term.normalize fresh))).kind =
                    .leaf kind := by
                rw [Term.kind_rebuild, hterm]
                rfl
              exact absurd hnested (not_nested_of_leaf hkind)
          | lifted hsubject hoperand hchildren hterm hgone hevents hinner =>
              -- The child takes this place without an offer, so the second part holds of it.
              rw [Term.normalize_of_stays hgone, hterm] at hnested
              have hchild := mem_children_of_lifted hchildren
              exact .succ (step_of_lifted hsubject hoperand hchildren hinner)
                ((ih _ hchild (hclean.of_mem_children hchild)).2 depth hnested)
          | stripped hsubject hoffer => exact absurd hsubject (Term.clean_iff.mp hclean).1

/-- Every node that a visit leaves is what it makes of some node. -/
theorem exists_of_mem_subterms_normalize {inner : Term ι}
    (hinner : inner ∈ (term.normalize fresh).term.subterms) :
    ∃ origin ∈ term.subterms, inner = (origin.normalize fresh).term := by
  induction term using Term.induction_offer fresh with
  | step term ih =>
      cases hgone : (term.offer .normalization fresh).gone with
      | true =>
          have hseparator : term.IsSeparator := Term.isSeparator_of_gone hgone
          rw [(normalize_of_isSeparator fresh hseparator).1, Term.mem_subterms_iff, Term.children,
            children_of_isSeparator hseparator] at hinner
          rcases hinner with rfl | ⟨child, hchild, -⟩
          · exact ⟨_, Term.mem_subterms_self _, (normalize_of_isSeparator fresh hseparator).1.symm⟩
          · cases hchild
      | false =>
          rcases Term.mem_subterms_iff.mp hinner with rfl | ⟨other, hother, hinner⟩
          · exact ⟨term, term.mem_subterms_self, rfl⟩
          · rw [Term.normalize_of_stays hgone] at hother
            obtain ⟨child, hmem, rfl⟩ := Term.exists_of_mem_children_rebuild hother
            obtain ⟨origin, horigin, rfl⟩ := ih child hmem hinner
            refine ⟨origin, ?_, rfl⟩
            cases offered fresh term with
            | unmatched hplan hoffer =>
                rw [hoffer] at hmem
                exact Term.mem_subterms_of_mem_children hmem horigin
            | read hform hread hterm _ hevents =>
                rw [← Term.children, hterm] at hmem
                cases hmem
            | lifted hsubject hoperand hchildren hterm _ hevents =>
                rw [hterm] at hmem
                exact Term.mem_subterms_of_mem_children (mem_children_of_lifted hchildren)
                  (Term.mem_subterms_of_mem_children hmem horigin)
            | stripped hsubject hoffer =>
                obtain ⟨rule, subject, hoffer⟩ := hoffer
                rw [hoffer] at hgone
                cases hgone

theorem nestedAtMost_normalize (fresh : ι) {bound : Nat} (hclean : term.Clean)
    (hnested : NestedAtMost bound term) : NestedAtMost (bound / 2) (term.normalize fresh).term := by
  intro inner hinner depth hdepth
  obtain ⟨origin, horigin, rfl⟩ := exists_of_mem_subterms_normalize hinner
  have hchain := (nested_of_normalize fresh (hclean.of_mem horigin)).1 depth hdepth
  have hle := hnested origin horigin _ hchain
  omega

theorem nestedAtMost_advance (fresh : ι) {bound : Nat} (hclean : term.Clean)
    (hnested : NestedAtMost bound term) (count : Nat) :
    (term.advance .normalization fresh count).Clean ∧
      NestedAtMost (bound / 2 ^ count) (term.advance .normalization fresh count) := by
  induction count generalizing term bound with
  | zero => exact ⟨hclean, by simpa [Term.advance] using hnested⟩
  | succ count ih =>
      have hnext := ih (clean_normalize_of_clean fresh hclean)
        (nestedAtMost_normalize fresh hclean hnested)
      rwa [Nat.div_div_eq_div_mul, ← Nat.pow_succ'] at hnext

/-- A visit only leaves a leaf to be read that it lifted. -/
theorem exists_step_of_raw {kind : LeafKind} {text : String} {value : Value}
    (hstays : (term.normalize fresh).gone = false)
    (hform : (term.normalize fresh).term.form = .leaf kind (.raw text))
    (hread : readValue kind text = some value) :
    ∃ child, Step Term.form term (.lift child) := by
  cases offered fresh term with
  | unmatched hplan hoffer =>
      rw [Term.normalize_of_stays (by rw [hoffer]), hoffer] at hform
      have hleaf : term.form = .leaf kind (.raw text) := by
        cases hterm : term.form with
        | leaf => rwa [Term.rebuild_of_leaf hterm] at hform
        | _ =>
            rw [hterm] at hform
            cases hform
      exact absurd hplan (plan?_ne_none_of_step (.coerce hleaf hread))
  | read _ hread' hterm hgone hevents =>
      rw [Term.normalize_of_stays hgone, hterm, Term.rebuild_of_leaf (Term.form_node _ _)] at hform
      cases hform
      exact absurd hread' ne_raw_of_readValue
  | lifted hsubject hoperand hchildren hterm hgone hevents hinner =>
      exact ⟨_, step_of_lifted hsubject hoperand hchildren hinner⟩
  | stripped hsubject hoffer =>
      rw [gone_normalize_iff.mpr hsubject] at hstays
      cases hstays

/-- Without wrappers to lift there is only reading left to do, and a visit does it all. -/
theorem settled_of_nestedAtMost_zero (fresh : ι) (hclean : term.Clean)
    (hnested : NestedAtMost 0 term) : (term.normalize fresh).term.Settled .normalization := by
  intro inner hinner
  have hseparator : ¬ inner.IsSeparator := clean_normalize_of_clean fresh hclean inner hinner
  obtain ⟨origin, horigin, rfl⟩ := exists_of_mem_subterms_normalize hinner
  have hclean' := hclean.of_mem horigin
  have hunlifted {child : Term ι} : ¬ Step Term.form origin (.lift child) := by
    intro hlift
    exact Nat.not_succ_le_zero 0 (hnested origin horigin 1 (.succ hlift (.zero child)))
  -- A wrapper that the visit leaves was around another one before.
  have hunlifted' {child : Term ι} :
      ¬ Step Term.form (origin.normalize fresh).term (.lift child) := by
    intro hlift
    have hchain := (nested_of_normalize fresh hclean').1 1 (.succ hlift (.zero child))
    exact absurd (hnested origin horigin 2 hchain) (by decide)
  cases hplan : Phase.normalization.catalogue.plan? Term.form (origin.normalize fresh).term with
  | none => rfl
  | some planned =>
      exfalso
      obtain ⟨rule, edit⟩ := planned
      have hstep : Step Term.form (origin.normalize fresh).term edit := step_of_plan? hplan
      cases edit with
      | lift child => exact hunlifted' hstep
      | remove =>
          cases hstep with
          | strip hsubject => exact hseparator hsubject
      | coerce value =>
          cases hstep with
          | coerce hform hread =>
              -- A leaf left to be read was lifted, but there was nothing to lift.
              obtain ⟨child, hlift⟩ :=
                exists_step_of_raw (gone_normalize_of_clean fresh hclean') hform hread
              exact hunlifted hlift
      | build form relisted => cases hstep

/-- The number of visits that are enough: one strips the separators, the next ones halve the
chains, and the last one reads what was lifted. -/
theorem settled_advance (fresh : ι) (hretains : ¬ term.Retains IsSeparator)
    (hstays : (term.normalize fresh).gone = false) :
    (term.advance .normalization fresh (Nat.log 2 (max term.wrappers 1) + 3)).Settled
      .normalization := by
  have hclean := clean_normalize hretains hstays
  have hnested : NestedAtMost (max term.wrappers 1) (term.normalize fresh).term :=
    (nestedAtMost_wrappers _).mono ((wrappers_normalize_le fresh term).trans (Nat.le_max_left _ _))
  obtain ⟨hclean', hnested'⟩ :=
    nestedAtMost_advance fresh hclean hnested (Nat.log 2 (max term.wrappers 1) + 1)
  rw [Nat.div_eq_of_lt (Nat.lt_pow_succ_log_self (by decide) _)] at hnested'
  have hsettled := settled_of_nestedAtMost_zero fresh hclean' hnested'
  rw [show Nat.log 2 (max term.wrappers 1) + 3 =
    1 + (Nat.log 2 (max term.wrappers 1) + 1) + 1 by omega, Term.advance_add, Term.advance_add]
  exact hsettled

end AstPromotion.Normalization
