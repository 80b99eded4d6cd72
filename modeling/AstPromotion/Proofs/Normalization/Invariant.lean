import AstPromotion.Proofs.Shallow
import Mathlib

/-! # What normalization makes of a shallow term

Below a node that normalization leaves stand leaves, read or as they were, and
groups. A node that is lifted is not offered again in the same visit; the visit
goes on below it.
-/

namespace AstPromotion.Normalization

open Term (node rebuild)

variable {ι : Type}

/-- What normalization may put in the place of a shallow term, before it goes on below. -/
inductive Offered (fresh : ι) (term : Term ι) : Prop
  | unmatched (hplan : catalogue.plan? Term.form term = none)
      (hoffer : term.offer .normalization fresh = { term, gone := false, events := [] })
  | read {kind : LeafKind} {text : String} {value : Value}
      (hform : term.form = .leaf kind (.raw text)) (hread : readValue kind text = some value)
      (hterm : (term.offer .normalization fresh).term = node term.label (.leaf kind value))
      (hgone : (term.offer .normalization fresh).gone = false)
      (hevents : ∃ rule subject,
        (term.offer .normalization fresh).events = [{ rule, subject, change := .inPlace }])
  | lifted {child : Term ι} (hsubject : term.form.hasRole .expression = true)
      (hchild : child.kind.isOperand = true)
      (hchildren : term.children = [child] ∨ ∃ opening closing,
        term.children = [opening, child, closing] ∧
          opening.kind = .leaf (.mark (.punctuation .leftParen)) ∧
            closing.kind = .leaf (.mark (.punctuation .rightParen)))
      (hterm : (term.offer .normalization fresh).term = child)
      (hgone : (term.offer .normalization fresh).gone = false)
      (hevents : ∃ rule subject kind,
        (term.offer .normalization fresh).events = [{ rule, subject, change := .became kind }])
      (hinner : term.children ≠ [child] → child.form.hasRole .expression = true)
  | stripped (hsubject : isSeparator term.kind = true)
      (hoffer : ∃ rule subject, term.offer .normalization fresh =
        { term, gone := true, events := [{ rule, subject, change := .removed }] })

theorem offered (fresh : ι) (term : Term ι) : Offered fresh term := by
  cases hplan : Phase.normalization.catalogue.plan? Term.form term with
  | none => exact .unmatched hplan (Term.offer_of_none hplan fresh)
  | some planned =>
      obtain ⟨rule, edit⟩ := planned
      have hoffer := Term.offer_of_some hplan fresh
      cases step_of_plan? hplan with
      | coerce hform hread =>
          refine .read hform hread ?_ ?_ ⟨rule, term.kind, ?_⟩
          · rw [hoffer, Term.enact, Term.withValue, hform]
            rfl
          · rw [hoffer]
            rfl
          · rw [hoffer]
            rfl
      | @unwrap child hsubject hchildren hchild =>
          refine .lifted hsubject hchild (Or.inl hchildren) ?_ ?_ ⟨rule, term.kind, child.kind, ?_⟩
            fun hother => absurd hchildren hother
          · rw [hoffer]
            rfl
          · rw [hoffer]
            rfl
          · rw [hoffer]
            rfl
      | @unparenthesize opening inner closing hsubject hchildren hopening hinner hclosing =>
          have hoperand : inner.kind.isOperand = true := by
            rw [Kind.isOperand, Bool.or_eq_true]
            exact Or.inl hinner
          refine .lifted hsubject hoperand (Or.inr ⟨opening, closing, hchildren, hopening, hclosing⟩)
            ?_ ?_ ⟨rule, term.kind, inner.kind, ?_⟩ fun _ => hinner
          · rw [hoffer]
            rfl
          · rw [hoffer]
            rfl
          · rw [hoffer]
            rfl
      | strip hsubject => exact .stripped hsubject ⟨rule, term.kind, hoffer⟩

theorem mem_children_of_lifted {term child : Term ι}
    (hchildren : term.children = [child] ∨ ∃ opening closing,
      term.children = [opening, child, closing] ∧
        opening.kind = .leaf (.mark (.punctuation .leftParen)) ∧
          closing.kind = .leaf (.mark (.punctuation .rightParen))) : child ∈ term.children := by
  rcases hchildren with hchildren | ⟨opening, closing, hchildren, -, -⟩
  · rw [hchildren]
    exact List.mem_cons_self
  · rw [hchildren]
    exact List.mem_cons_of_mem _ List.mem_cons_self

/-- Normalization goes on with a shallow term. -/
theorem shallow_offer (fresh : ι) {term : Term ι} (hshallow : term.Shallow) :
    (term.offer .normalization fresh).term.Shallow := by
  cases offered fresh term with
  | unmatched hplan hoffer =>
      rw [hoffer]
      exact hshallow
  | read hform hread hterm hgone hevents =>
      rw [hterm]
      exact Term.shallow_of_leaf rfl
  | lifted hsubject hchild hchildren hterm hgone hevents =>
      rw [hterm]
      exact hshallow.of_mem_children (mem_children_of_lifted hchildren)
  | stripped hsubject hoffer =>
      obtain ⟨rule, subject, hoffer⟩ := hoffer
      rw [hoffer]
      exact hshallow

/-- A property of the leaves of a shallow term, read or not, that passes from the items of a group
to the group holds of every node that normalization leaves. -/
theorem forall_subterms_normalize {fresh : ι} {property : Term ι → Prop} {term : Term ι}
    (hgroup : ∀ label heading items, (∀ item ∈ items, ∀ inner ∈ item.subterms, property inner) →
      property (node label (.group heading items)))
    (hshallow : term.Shallow)
    (hleaf : ∀ inner ∈ term.subterms, ∀ kind value, inner.form = .leaf kind value → property inner)
    (hread : ∀ inner ∈ term.subterms, ∀ kind text value, inner.form = .leaf kind (.raw text) →
      readValue kind text = some value → property (node inner.label (.leaf kind value)))
    (hstays : (term.normalize fresh).gone = false) :
    ∀ inner ∈ (term.normalize fresh).term.subterms, property inner := by
  induction term using Term.induction_offer fresh with
  | step term ih =>
      have hgone : (term.offer .normalization fresh).gone = false := by
        cases hgone : (term.offer .normalization fresh).gone with
        | false => rfl
        | true =>
            rw [Term.normalize_of_gone hgone, hgone] at hstays
            cases hstays
      rw [Term.normalize_of_stays hgone]
      have hoffered := shallow_offer fresh hshallow
      -- The visit goes on below a term from inside this one, or below a leaf that was read.
      have hinside : (∀ inner ∈ (term.offer .normalization fresh).term.subterms,
            inner ∈ term.subterms) ∨
          ∃ kind value, (term.offer .normalization fresh).term = node term.label (.leaf kind value) ∧
            property (node term.label (.leaf kind value)) := by
        cases offered fresh term with
        | unmatched hplan hoffer =>
            rw [hoffer]
            exact Or.inl fun _ hinner => hinner
        | read hform hvalue hterm hgone hevents =>
            exact Or.inr ⟨_, _, hterm, hread term term.mem_subterms_self _ _ _ hform hvalue⟩
        | lifted hsubject hchild hchildren hterm hgone hevents =>
            rw [hterm]
            exact Or.inl fun _ => Term.mem_subterms_of_mem_children (mem_children_of_lifted hchildren)
        | stripped hsubject hoffer =>
            obtain ⟨rule, subject, hoffer⟩ := hoffer
            rw [hoffer]
            exact Or.inl fun _ hinner => hinner
      rcases hinside with hinside | ⟨kind, value, hterm, hproperty⟩
      · rcases hoffered.leaf_or_group with ⟨kind, value, hform⟩ | ⟨heading, items, hform⟩
        · rw [Term.rebuild_of_leaf hform, ← hform, Term.node_eta]
          refine Term.forall_subterms_iff.mpr ⟨?_, ?_⟩
          · exact hleaf _ (hinside _ (Term.mem_subterms_self _)) kind value hform
          · rw [Term.children, hform]
            exact List.forall_mem_nil _
        · rw [Term.rebuild_of_group hform]
          have hitems : ∀ item ∈ Term.remaining (items.map (Term.normalize fresh)),
              ∀ inner ∈ item.subterms, property inner := by
            intro item hitem
            obtain ⟨residue, hresidue, hkept, rfl⟩ := Term.mem_remaining.mp hitem
            obtain ⟨child, hchild, rfl⟩ := List.mem_map.mp hresidue
            have hchild : child ∈ (term.offer .normalization fresh).term.children := by
              rw [Term.children, hform]
              exact hchild
            have hbelow {inner : Term ι} (hinner : inner ∈ child.subterms) : inner ∈ term.subterms :=
              hinside inner (Term.mem_subterms_of_mem_children hchild hinner)
            exact ih child hchild (hoffered.of_mem_children hchild)
              (fun inner hinner => hleaf inner (hbelow hinner))
              (fun inner hinner => hread inner (hbelow hinner)) hkept
          exact Term.forall_subterms_iff.mpr ⟨hgroup _ _ _ hitems, hitems⟩
      · rw [hterm]
        refine Term.forall_subterms_iff.mpr ⟨hproperty, ?_⟩
        exact List.forall_mem_nil _

/-- Normalization leaves a shallow term. -/
theorem shallow_normalize (fresh : ι) {term : Term ι} (hshallow : term.Shallow) :
    (term.normalize fresh).term.Shallow := by
  cases hgone : (term.normalize fresh).gone with
  | false =>
      refine forall_subterms_normalize ?_ hshallow ?_ ?_ hgone
      · exact fun _ _ _ _ _ heq => nomatch heq
      · exact fun inner hinner _ _ _ => hshallow inner hinner
      · exact fun _ _ _ _ _ _ _ _ heq => nomatch heq
  | true =>
      cases hoffered : (term.offer .normalization fresh).gone with
      | true =>
          rw [Term.normalize_of_gone hoffered, Term.term_offer_of_gone hoffered]
          exact hshallow
      | false =>
          rw [Term.normalize_of_stays hoffered] at hgone
          cases hgone

/-- A quantity that a group has from its items, that separators lack and rules keep is kept by
normalization. -/
theorem keeps_normalize {M : Type} [AddMonoid M] {fresh : ι} {quantity : Term ι → M}
    (hgroup : ∀ label heading, ∃ own, ∀ items,
      quantity (node label (.group heading items)) = own + (items.map quantity).sum)
    (hseparator : ∀ term, isSeparator (Term.kind term) = true → quantity term = 0)
    (hoffer : ∀ term, term.Shallow → quantity (term.offer .normalization fresh).term = quantity term)
    {term : Term ι} (hshallow : term.Shallow) :
    ((term.normalize fresh).gone = true → quantity term = 0) ∧
      quantity (term.normalize fresh).term = quantity term := by
  induction term using Term.induction_offer fresh with
  | step term ih =>
      cases hgone : (term.offer .normalization fresh).gone with
      | true =>
          rw [Term.normalize_of_gone hgone]
          exact ⟨fun _ => hseparator term (Term.isSeparator_of_gone hgone), hoffer term hshallow⟩
      | false =>
          rw [Term.normalize_of_stays hgone]
          refine ⟨fun h => (nomatch h), ?_⟩
          rw [← hoffer term hshallow]
          have hoffered := shallow_offer fresh hshallow
          rcases hoffered.leaf_or_group with ⟨kind, value, hform⟩ | ⟨heading, items, hform⟩
          · rw [Term.rebuild_of_leaf hform, ← hform, Term.node_eta]
          · have hbelow : ∀ item ∈ items, ((item.normalize fresh).gone = true → quantity item = 0) ∧
                quantity (item.normalize fresh).term = quantity item := by
              intro item hitem
              have hchild : item ∈ (term.offer .normalization fresh).term.children := by
                rw [Term.children, hform]
                exact hitem
              exact ih item hchild (hoffered.of_mem_children hchild)
            obtain ⟨own, hown⟩ := hgroup (term.offer .normalization fresh).term.label heading
            rw [Term.rebuild_of_group hform, hown, Term.sum_remaining_of_keeps hbelow, ← hown, ← hform,
              Term.node_eta]

/-- The events of a visit that goes on below an offered term. -/
theorem events_normalize {fresh : ι} {term : Term ι}
    (hstays : (term.offer .normalization fresh).gone = false) :
    (term.normalize fresh).events = (term.offer .normalization fresh).events ++
      (term.offer .normalization fresh).term.children.flatMap fun child =>
        (child.normalize fresh).events := by
  rw [Term.normalize_of_stays hstays, Term.eventsBelow, Form.children_map, List.flatMap_map]
  rfl

/-- A quantity that a group has from its items, and of which every rule takes as much as it makes
rewrites of some sort, loses to a visit as much as the visit makes. -/
theorem spends_normalize {fresh : ι} {quantity : Term ι → Nat} {counts : Event → Bool}
    (hgroup : ∀ label heading, ∃ own, ∀ items,
      quantity (node label (.group heading items)) = own + (items.map quantity).sum)
    (hoffer : ∀ term, term.Shallow →
      (term.offer .normalization fresh).left quantity +
        (term.offer .normalization fresh).events.countP counts = quantity term)
    {term : Term ι} (hshallow : term.Shallow) :
    (term.normalize fresh).left quantity + (term.normalize fresh).events.countP counts =
      quantity term := by
  induction term using Term.induction_offer fresh with
  | step term ih =>
      cases hgone : (term.offer .normalization fresh).gone with
      | true =>
          rw [Term.normalize_of_gone hgone]
          exact hoffer term hshallow
      | false =>
          have hoffered := shallow_offer fresh hshallow
          rw [events_normalize hgone, Term.normalize_of_stays hgone, ← hoffer term hshallow,
            Residue.left, Residue.left, hgone, if_neg Bool.false_ne_true, if_neg Bool.false_ne_true,
            List.countP_append, List.countP_flatMap, Nat.add_comm (List.countP _ _), ← Nat.add_assoc]
          congr 1
          rcases hoffered.leaf_or_group with ⟨kind, value, hform⟩ | ⟨heading, items, hform⟩
          · rw [Term.rebuild_of_leaf hform, ← hform, Term.node_eta, Term.children, hform]
            rfl
          · have hbelow : ∀ item ∈ items, (item.normalize fresh).left quantity +
                (item.normalize fresh).events.countP counts = quantity item := by
              intro item hitem
              have hchild : item ∈ (term.offer .normalization fresh).term.children := by
                rw [Term.children, hform]
                exact hitem
              exact ih item hchild (hoffered.of_mem_children hchild)
            obtain ⟨own, hown⟩ := hgroup (term.offer .normalization fresh).term.label heading
            have hnext := hown items
            rw [← hform, Term.node_eta] at hnext
            rw [Term.rebuild_of_group hform, hown, hnext, Term.sum_remaining, List.map_map,
              ← List.map_congr_left hbelow, List.sum_map_add, Term.children, hform, Nat.add_assoc]
            rfl

end AstPromotion.Normalization
