import AstPromotion.Proofs.Visit

/-! # Settled terms

A term is settled for a phase when no rule matches anywhere in it. Those are the
terms on which a visit is idle, and an idle visit changes nothing.
-/

namespace AstPromotion.Term

variable {ι κ : Type}

/-- No rule of the phase matches any node of the term. -/
def Settled (phase : Phase) (term : Term ι) : Prop :=
  ∀ inner ∈ term.subterms, phase.catalogue.plan? form inner = none

theorem settled_iff {phase : Phase} {term : Term ι} :
    term.Settled phase ↔
      phase.catalogue.plan? form term = none ∧ ∀ child ∈ term.children, child.Settled phase :=
  forall_subterms_iff

theorem Settled.of_mem {phase : Phase} {term inner : Term ι} (hsettled : term.Settled phase)
    (hinner : inner ∈ term.subterms) : inner.Settled phase :=
  fun other hother => hsettled other (mem_subterms_trans hinner hother)

theorem settled_map {phase : Phase} {f : ι → κ} {term : Term ι} :
    (term.map f).Settled phase ↔ term.Settled phase := by
  rw [Settled, Settled, subterms_map, List.forall_mem_map]
  exact forall₂_congr fun inner _ => (views_map f).plan?_eq_none_iff trivial phase.catalogue

/-- What an idle visit gives back. -/
def untouched (term : Term ι) : Residue ι :=
  { term, gone := false, events := [] }

theorem rebuild_untouched (term : Term ι) : rebuild term.label (term.form.map untouched) = term := by
  have hstays : ∀ child ∈ (term.form.map untouched).children, child.gone = false := by
    intro residue hresidue
    rw [Form.children_map] at hresidue
    obtain ⟨child, -, rfl⟩ := List.mem_map.mp hresidue
    rfl
  rw [rebuild, Form.prune_eq_self hstays, Form.map_map]
  conv => rhs; rw [← term.node_eta]
  congr 1
  exact Form.map_eq_self fun child _ => rfl

theorem eventsBelow_untouched (form : Form (Term ι)) : eventsBelow (form.map untouched) = [] := by
  rw [eventsBelow, Form.children_map, List.flatMap_map]
  exact List.flatMap_eq_nil_iff.mpr fun _ _ => rfl

theorem normalize_of_settled {term : Term ι} (hsettled : term.Settled .normalization) (fresh : ι) :
    term.normalize fresh = term.untouched := by
  induction term using induction with
  | step term ih =>
      obtain ⟨hplan, hchildren⟩ := settled_iff.mp hsettled
      have hoffer := offer_of_none hplan fresh
      have hbelow : term.form.map (normalize fresh) = term.form.map untouched :=
        Form.map_congr fun child hchild => ih child hchild (hchildren child hchild)
      rw [normalize_of_stays (by rw [hoffer]), hoffer]
      simp only [hbelow, rebuild_untouched, eventsBelow_untouched, List.append_nil]
      rfl

theorem promote_of_settled {term : Term ι} (hsettled : term.Settled .promotion) (fresh : ι) :
    term.promote fresh = term.untouched := by
  induction term using induction with
  | step term ih =>
      obtain ⟨hplan, hchildren⟩ := settled_iff.mp hsettled
      have hoffer := offer_of_none hplan fresh
      have hbelow : term.form.map (promote fresh) = term.form.map untouched :=
        Form.map_congr fun child hchild => ih child hchild (hchildren child hchild)
      rw [promote_eq, hbelow, rebuild_untouched, hoffer, eventsBelow_untouched]
      rfl

/-- A visit of a settled term is idle. -/
theorem visit_of_settled {phase : Phase} {term : Term ι} (hsettled : term.Settled phase)
    (fresh : ι) : term.visit phase fresh = term.untouched := by
  cases phase with
  | normalization => exact normalize_of_settled hsettled fresh
  | promotion => exact promote_of_settled hsettled fresh

theorem plan?_eq_none_of_events_eq_nil {phase : Phase} {fresh : ι} {term : Term ι}
    (hidle : (term.offer phase fresh).events = []) : phase.catalogue.plan? form term = none := by
  cases hplan : phase.catalogue.plan? form term with
  | none => rfl
  | some planned =>
      obtain ⟨rule, edit⟩ := planned
      rw [offer_of_some hplan] at hidle
      cases hidle

/-- If the visits below a node were idle, the node's children are settled. -/
theorem events_eq_nil_of_mem_children {visit : Term ι → Residue ι} {form : Form (Term ι)}
    (hidle : eventsBelow (form.map visit) = []) {child : Term ι} (hchild : child ∈ form.children) :
    (visit child).events = [] := by
  rw [eventsBelow, Form.children_map, List.flatMap_map, List.flatMap_eq_nil_iff] at hidle
  exact hidle child hchild

/-- A term whose visit is idle is settled. -/
theorem settled_of_events_eq_nil {phase : Phase} {fresh : ι} {term : Term ι}
    (hidle : (term.visit phase fresh).events = []) : term.Settled phase := by
  induction term using induction with
  | step term ih =>
      cases phase with
      | normalization =>
          rw [visit] at hidle
          have hoffered : (term.offer .normalization fresh).events = [] := by
            cases hgone : (term.offer .normalization fresh).gone with
            | true => rwa [normalize_of_gone hgone] at hidle
            | false =>
                rw [normalize_of_stays hgone] at hidle
                exact (List.append_eq_nil_iff.mp hidle).1
          have hplan := plan?_eq_none_of_events_eq_nil hoffered
          have hoffer := offer_of_none hplan fresh
          rw [normalize_of_stays (by rw [hoffer]), hoffer] at hidle
          refine settled_iff.mpr ⟨hplan, fun child hchild => ih child hchild ?_⟩
          exact events_eq_nil_of_mem_children (List.append_eq_nil_iff.mp hidle).2 hchild
      | promotion =>
          rw [visit, promote_eq] at hidle
          obtain ⟨hbelow, hoffered⟩ := List.append_eq_nil_iff.mp hidle
          have hchildren : ∀ child ∈ term.children, child.Settled .promotion := fun child hchild =>
            ih child hchild (events_eq_nil_of_mem_children hbelow hchild)
          have hvisited : term.form.map (promote fresh) = term.form.map untouched :=
            Form.map_congr fun child hchild => promote_of_settled (hchildren child hchild) fresh
          rw [hvisited, rebuild_untouched] at hoffered
          exact settled_iff.mpr ⟨plan?_eq_none_of_events_eq_nil hoffered, hchildren⟩

/-! ## Running a phase -/

/-- Visits until one is idle, but at most `limit`; whether the last one was, and what is left. -/
def settle (phase : Phase) (fresh : ι) : (limit : Nat) → Term ι → Bool × Term ι
  | 0, term => (false, term)
  | limit + 1, term =>
    if (term.visit phase fresh).events.isEmpty then (true, (term.visit phase fresh).term)
    else settle phase fresh limit (term.visit phase fresh).term

/-- What is left when the last visit was idle is settled. -/
theorem settled_of_settle {phase : Phase} {fresh : ι} {limit : Nat} {term : Term ι}
    (hsettled : (term.settle phase fresh limit).1 = true) :
    (term.settle phase fresh limit).2.Settled phase := by
  induction limit generalizing term with
  | zero => cases hsettled
  | succ limit ih =>
      rw [settle] at hsettled ⊢
      split at hsettled
      next hidle =>
          rw [if_pos hidle]
          have hterm := settled_of_events_eq_nil (List.isEmpty_iff.mp hidle)
          rw [visit_of_settled hterm]
          exact hterm
      next hbusy =>
          rw [if_neg hbusy]
          exact ih hsettled

/-- What every visit keeps, a run of visits keeps. -/
theorem settle_induction {phase : Phase} {fresh : ι} (property : Term ι → Prop)
    (hvisit : ∀ term, property term → property (term.visit phase fresh).term) {limit : Nat}
    {term : Term ι} (hterm : property term) : property (term.settle phase fresh limit).2 := by
  induction limit generalizing term with
  | zero => exact hterm
  | succ limit ih =>
      rw [settle]
      split
      · exact hvisit term hterm
      · exact ih (hvisit term hterm)

end AstPromotion.Term
