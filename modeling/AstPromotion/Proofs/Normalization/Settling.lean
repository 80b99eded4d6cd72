import AstPromotion.Proofs.Normalization.Invariant
import AstPromotion.Proofs.Settled
import Mathlib

/-! # Normalization settles

Every lift takes a wrapper away. A visit without lifts offers every node to the
rules, so it leaves no leaf to be read and no separator, and from then on only
lifts are left to do.
-/

namespace AstPromotion

/-- Whether a rewrite put a child in its parent's place, or a construct in a grouping's. -/
def Event.isReplacement (event : Event) : Bool :=
  match event.change with
  | .became _ => true
  | _ => false

namespace Term

variable {ι : Type}

/-- The number of nodes that play the role of an expression. -/
def wrappers (term : Term ι) : Nat :=
  term.subterms.countP fun inner => inner.form.hasRole .expression

theorem wrappers_eq (term : Term ι) :
    term.wrappers =
      (term.children.map wrappers).sum + if term.form.hasRole .expression then 1 else 0 := by
  rw [wrappers, subterms_eq, List.countP_cons, List.countP_flatMap]
  rfl

theorem wrappers_of_leaf {term : Term ι} {kind : LeafKind} {value : Value}
    (hform : term.form = .leaf kind value) : term.wrappers = 0 := by
  rw [wrappers_eq, children, hform]
  rcases kind with _ | _ | (_ | _) <;> rfl

theorem wrappers_le (term : Term ι) : term.wrappers ≤ term.labels.length := by
  rw [labels, List.length_map]
  exact List.countP_le_length

/-- A leaf that normalization would read or strip. -/
def Rough (term : Term ι) : Prop :=
  (∃ kind text value, term.form = .leaf kind (.raw text) ∧
    Normalization.readValue kind text = some value) ∨
      Normalization.isSeparator term.kind = true

/-- Nothing in the term is to be read or stripped. -/
def Smooth (term : Term ι) : Prop :=
  ∀ inner ∈ term.subterms, ¬ inner.Rough

end Term

namespace Normalization

open Term (node)

variable {ι : Type} {fresh : ι} {term : Term ι}

/-- Reading yields no raw text. -/
theorem ne_raw_of_readValue {kind : LeafKind} {text other : String} :
    readValue kind text ≠ some (.raw other) := by
  rcases kind with (_ | _ | _ | _) | _ | sign
  · rw [readValue, readNumber]
    cases Binary64.ofNumeral? (Text.trim text) <;> simp
  · simp [readValue, readWord]
  · change readBoolean (.literal .boolean) text ≠ _
    unfold readBoolean
    split <;> simp
  · simp [readValue, readWord]
  · simp [readValue, readWord]
  · simp [readValue]

/-- What was read is not read again. -/
theorem not_rough_of_readValue {kind : LeafKind} {text : String} {value : Value}
    (hread : readValue kind text = some value) (label : ι) :
    ¬ (node label (.leaf kind value)).Rough := by
  rintro (⟨_, other, _, hform, -⟩ | hseparator)
  · cases hform
    exact ne_raw_of_readValue hread
  · rcases kind with _ | _ | sign
    · cases hseparator
    · cases hseparator
    · cases hread

theorem not_rough_of_group {heading : Heading} {items : List (Term ι)}
    (hform : term.form = .group heading items) : ¬ term.Rough := by
  rintro (⟨_, _, _, hleaf, -⟩ | hseparator)
  · rw [hform] at hleaf
    cases hleaf
  · rw [Term.kind, hform] at hseparator
    cases heading <;> cases hseparator

/-- A rough leaf matches a rule. -/
theorem not_rough_of_plan? (hplan : catalogue.plan? Term.form term = none) : ¬ term.Rough := by
  rintro (⟨kind, text, value, hform, hread⟩ | hseparator)
  · exact plan?_ne_none_of_step (.coerce hform hread) hplan
  · exact plan?_ne_none_of_step (.strip hseparator) hplan

/-- The wrappers around what normalization puts in a term's place. -/
theorem wrappers_offer (fresh : ι) (term : Term ι) :
    (term.offer .normalization fresh).term.wrappers +
        (term.offer .normalization fresh).events.countP Event.isReplacement = term.wrappers := by
  cases offered fresh term with
  | unmatched hplan hoffer =>
      rw [hoffer]
      rfl
  | read hform hread hterm hgone hevents =>
      obtain ⟨rule, subject, hevents⟩ := hevents
      rw [hterm, hevents, Term.wrappers_of_leaf hform, Term.wrappers_of_leaf (Term.form_node _ _)]
      rfl
  | lifted hsubject hchild hchildren hterm hgone hevents =>
      obtain ⟨rule, subject, kind, hevents⟩ := hevents
      rw [hterm, hevents, Term.wrappers_eq term, if_pos hsubject]
      rcases hchildren with hchildren | ⟨opening, closing, hchildren, hopening, hclosing⟩
      · rw [hchildren]
        rfl
      · have hleaf {sign : Term ι} {mark : Punctuation}
            (hkind : sign.kind = .leaf (.mark (.punctuation mark))) : sign.wrappers = 0 := by
          obtain ⟨value, hform⟩ := Form.exists_of_kind_leaf hkind
          exact Term.wrappers_of_leaf hform
        rw [hchildren]
        simp [hleaf hopening, hleaf hclosing, Event.isReplacement]
  | stripped hsubject hoffer =>
      obtain ⟨rule, subject, hoffer⟩ := hoffer
      rw [hoffer]
      rfl

theorem wrappers_of_isSeparator (hkind : isSeparator term.kind = true) : term.wrappers = 0 := by
  have hrole : term.form.hasRole .expression = false := by
    rw [Form.hasRole]
    revert hkind
    rw [Term.kind]
    generalize term.form.kind = kind
    revert kind
    decide
  rw [Term.wrappers_eq, Term.children, children_of_isSeparator hkind, hrole]
  rfl

/-- Every replacement takes one wrapper away, and nothing else does. -/
theorem wrappers_normalize (hshallow : term.Shallow) (hstays : (term.normalize fresh).gone = false) :
    (term.normalize fresh).term.wrappers +
      (term.normalize fresh).events.countP Event.isReplacement = term.wrappers := by
  have hspends : (term.normalize fresh).left Term.wrappers +
      (term.normalize fresh).events.countP Event.isReplacement = term.wrappers := by
    refine spends_normalize (fun label heading => ?_) (fun term _ => ?_) hshallow
    · refine ⟨if (node label (.group heading [])).form.hasRole .expression then 1 else 0, ?_⟩
      intro items
      rw [Term.wrappers_eq, Nat.add_comm]
      rfl
    · have hoffer := wrappers_offer fresh term
      rw [Residue.left]
      split
      next hgone =>
          have hkind := Term.isSeparator_of_gone hgone
          rw [Term.term_offer_of_gone hgone, wrappers_of_isSeparator hkind] at hoffer
          rw [hoffer, wrappers_of_isSeparator hkind]
      next => exact hoffer
  rwa [Residue.left, hstays, if_neg Bool.false_ne_true] at hspends

/-! ## Visits without replacements -/

/-- A visit without replacements leaves nothing to read or to strip. -/
theorem smooth_of_countP_eq_zero (hshallow : term.Shallow)
    (hcount : (term.normalize fresh).events.countP Event.isReplacement = 0)
    (hstays : (term.normalize fresh).gone = false) : (term.normalize fresh).term.Smooth := by
  induction term using Term.induction_offer fresh with
  | step term ih =>
      cases hgone : (term.offer .normalization fresh).gone with
      | true =>
          rw [Term.normalize_of_gone hgone, hgone] at hstays
          cases hstays
      | false =>
          rw [events_normalize hgone, List.countP_append, List.countP_flatMap,
            Nat.add_eq_zero_iff] at hcount
          obtain ⟨hoffer, hbelow⟩ := hcount
          have hshallow' := shallow_offer fresh hshallow
          rw [Term.normalize_of_stays hgone]
          rcases hshallow'.leaf_or_group with ⟨kind, value, hform⟩ | ⟨heading, items, hform⟩
          · rw [Term.rebuild_of_leaf hform, ← hform, Term.node_eta]
            refine Term.forall_subterms_iff.mpr ⟨?_, ?_⟩
            · cases offered fresh term with
              | unmatched hplan hterm =>
                  rw [hterm]
                  exact not_rough_of_plan? hplan
              | read hraw hread hterm _ _ =>
                  rw [hterm]
                  exact not_rough_of_readValue hread term.label
              | lifted _ _ _ _ _ hevents =>
                  obtain ⟨rule, subject, became, hevents⟩ := hevents
                  rw [hevents] at hoffer
                  cases hoffer
              | stripped _ hterm =>
                  obtain ⟨rule, subject, hterm⟩ := hterm
                  rw [hterm] at hgone
                  cases hgone
            · rw [Term.children, hform]
              exact List.forall_mem_nil _
          · rw [Term.rebuild_of_group hform]
            refine Term.forall_subterms_iff.mpr ⟨not_rough_of_group rfl, ?_⟩
            intro item hitem
            obtain ⟨residue, hresidue, hkept, rfl⟩ := Term.mem_remaining.mp hitem
            obtain ⟨child, hchild, rfl⟩ := List.mem_map.mp hresidue
            have hmem : child ∈ (term.offer .normalization fresh).term.children := by
              rw [Term.children, hform]
              exact hchild
            refine ih child hmem (hshallow'.of_mem_children hmem) ?_ hkept
            rw [List.sum_eq_zero_iff_forall_eq_nat] at hbelow
            exact hbelow _ (List.mem_map_of_mem (f := List.countP Event.isReplacement ∘ fun child =>
              (Term.normalize fresh child).events) hmem)

/-- Once there is nothing to read or to strip, there never is. -/
theorem smooth_normalize (hshallow : term.Shallow) (hsmooth : term.Smooth)
    (hstays : (term.normalize fresh).gone = false) : (term.normalize fresh).term.Smooth := by
  refine forall_subterms_normalize ?_ hshallow ?_ ?_ hstays
  · exact fun _ _ _ _ => not_rough_of_group rfl
  · exact fun inner hinner _ _ _ => hsmooth inner hinner
  · exact fun inner _ _ _ _ _ hread => not_rough_of_readValue hread inner.label

/-- Then all that a visit can do is replace. -/
theorem events_eq_nil_of_smooth (hsmooth : term.Smooth)
    (hcount : (term.normalize fresh).events.countP Event.isReplacement = 0) :
    (term.normalize fresh).events = [] := by
  induction term using Term.induction with
  | step term ih =>
      obtain ⟨hself, hchildren⟩ := Term.forall_subterms_iff.mp hsmooth
      cases offered fresh term with
      | unmatched hplan hoffer =>
          have hstays : (term.offer .normalization fresh).gone = false := by rw [hoffer]
          rw [events_normalize hstays, hoffer] at hcount ⊢
          rw [List.nil_append, List.countP_flatMap, List.sum_eq_zero_iff_forall_eq_nat] at hcount
          rw [List.nil_append, List.flatMap_eq_nil_iff]
          intro child hchild
          exact ih child hchild (hchildren child hchild)
            (hcount _ (List.mem_map_of_mem (f := List.countP Event.isReplacement ∘ fun child =>
              (Term.normalize fresh child).events) hchild))
      | read hform hread _ _ _ => exact absurd (Or.inl ⟨_, _, _, hform, hread⟩) hself
      | lifted _ _ _ _ hstays hevents =>
          obtain ⟨rule, subject, kind, hevents⟩ := hevents
          rw [events_normalize hstays, hevents, List.cons_append, List.countP_cons] at hcount
          cases hcount
      | stripped hsubject _ => exact absurd (Or.inr hsubject) hself

/-! ## Enough visits -/

theorem gone_normalize_of_container (hkind : term.kind.isContainer = true) :
    (term.normalize fresh).gone = false :=
  congrArg Residue.gone (Term.visit_of_container .normalization fresh hkind)

theorem kind_normalize_of_container (hkind : term.kind.isContainer = true) :
    (term.normalize fresh).term.kind = term.kind := by
  have hvisit := Term.visit_of_container .normalization fresh hkind
  rw [Term.visit] at hvisit
  rw [hvisit, Term.rebuild, Term.kind_node, Form.kind_map, Form.kind_prune, Form.kind_map,
    Term.kind]

/-- From a smooth program on, every visit but the last takes a wrapper away. -/
theorem settle_of_smooth {limit : Nat} (hshallow : term.Shallow) (hsmooth : term.Smooth)
    (hkind : term.kind.isContainer = true) (hlimit : term.wrappers < limit) :
    (term.settle .normalization fresh limit).1 = true := by
  induction limit generalizing term with
  | zero => cases hlimit
  | succ limit ih =>
      have hstays : (term.normalize fresh).gone = false := gone_normalize_of_container hkind
      have hwrappers := wrappers_normalize hshallow hstays
      rw [Term.settle, Term.visit]
      split
      · rfl
      next hbusy =>
          have hcount : (term.normalize fresh).events.countP Event.isReplacement ≠ 0 := fun hcount =>
            hbusy (List.isEmpty_iff.mpr (events_eq_nil_of_smooth hsmooth hcount))
          refine ih (shallow_normalize fresh hshallow)
            (smooth_normalize hshallow hsmooth hstays) ?_ ?_
          · rw [kind_normalize_of_container hkind, hkind]
          · omega

/-- A program's wrappers and two visits more are enough. -/
theorem settle_of_shallow {limit : Nat} (hshallow : term.Shallow)
    (hkind : term.kind.isContainer = true) (hlimit : term.wrappers + 1 < limit) :
    (term.settle .normalization fresh limit).1 = true := by
  induction limit generalizing term with
  | zero => cases hlimit
  | succ limit ih =>
      have hstays : (term.normalize fresh).gone = false := gone_normalize_of_container hkind
      have hwrappers := wrappers_normalize hshallow hstays
      have hshallow' := shallow_normalize fresh hshallow
      have hkind' : (term.normalize fresh).term.kind.isContainer = true := by
        rw [kind_normalize_of_container hkind, hkind]
      rw [Term.settle, Term.visit]
      split
      · rfl
      · cases hcount : (term.normalize fresh).events.countP Event.isReplacement with
        | zero =>
            refine settle_of_smooth hshallow' ?_ hkind' (by omega)
            exact smooth_of_countP_eq_zero hshallow hcount hstays
        | succ count => exact ih hshallow' hkind' (by omega)

end Normalization

end AstPromotion
