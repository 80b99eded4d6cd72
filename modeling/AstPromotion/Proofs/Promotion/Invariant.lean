import AstPromotion.Proofs.Settled
import AstPromotion.Proofs.Shallow

/-! # What promotion makes of a shallow term

Below a node that promotion leaves stand leaves of the term it started from,
groups that match no rule, class bodies that gave up a constructor, and
constructs. Whatever holds of these four holds of every node.
-/

namespace AstPromotion.Promotion

open Term (node relist)

variable {ι : Type}

/-- A class body without the statement that holds the constructor. -/
theorem form_withItems {body : Term ι} {items : List (Term ι)}
    (hbody : body.form = .group .block items) (others : List (Term ι)) :
    body.withItems others = node body.label (.group .block others) := by
  rw [Term.withItems, hbody]
  rfl

/-- Everything below the fields of a construct was below the grouping, except for the class body
that gave up a statement. -/
theorem forall_subterms_of_fields {property : Term ι → Prop} {term : Term ι}
    {form : Form (Term ι)} {relisted : Option (Term ι × List (Term ι))}
    (hfields : Fields Term.form term form relisted)
    (hbelow : ∀ child ∈ term.children, ∀ inner ∈ child.subterms, property inner)
    (hrelist : ∀ label items others, others ⊆ items → property (node label (.group .block items)) →
      property (node label (.group .block others))) :
    ∀ field ∈ (relist relisted form).children, ∀ inner ∈ field.subterms, property inner := by
  cases hfields with
  | own hfields => exact fun field hfield => hbelow field (hfields.subset hfield)
  | @opened target mark value callee arguments hchildren htarget =>
      have htarget_mem : target ∈ term.children := by
        rw [Term.children, hchildren]
        exact List.mem_cons_self
      have hcall {field : Term ι} (hfield : field ∈ target.children) :
          ∀ inner ∈ field.subterms, property inner := fun inner hinner =>
        hbelow target htarget_mem inner (Term.mem_subterms_of_mem_children hfield hinner)
      intro field hfield
      simp only [relist, Form.children, List.mem_cons, List.not_mem_nil, or_false] at hfield
      rcases hfield with rfl | rfl | rfl
      · exact hcall (by simp [Term.children, htarget, Form.children])
      · exact hcall (by simp [Term.children, htarget, Form.children])
      · exact hbelow _ (by simp [Term.children, hchildren])
  | @extracted word name opening body closing function items others hchildren hbody htaken =>
      obtain ⟨before, statement, after, rfl, rfl, hfound, -⟩ := exists_of_takeConstructor? htaken
      have hbody_mem : body ∈ term.children := by
        rw [Term.children, hchildren]
        simp
      have hitem (item : Term ι) (hitem : item ∈ before ++ statement :: after) :
          ∀ inner ∈ item.subterms, property inner := by
        intro inner hinner
        refine hbelow body hbody_mem inner (Term.mem_subterms_of_mem_children ?_ hinner)
        rw [Term.children, hbody]
        exact hitem
      intro field hfield
      simp only [relist, Form.children, Option.toList_some, List.cons_append, List.nil_append,
        List.mem_cons, List.not_mem_nil, or_false] at hfield
      rcases hfield with rfl | rfl | rfl
      · exact hbelow _ (by simp [Term.children, hchildren])
      · have hstatement := hitem statement (by simp)
        rcases (eq_or_eq_of_constructorOf? hfound).1 with rfl | hform
        · exact hstatement
        · intro inner hinner
          refine hstatement inner (Term.mem_subterms_of_mem_children ?_ hinner)
          rw [Term.children, hform]
          exact List.mem_cons_self
      · rw [form_withItems hbody]
        refine Term.forall_subterms_iff.mpr ⟨?_, ?_⟩
        · have hself := hbelow body hbody_mem body body.mem_subterms_self
          rw [← body.node_eta, hbody] at hself
          refine hrelist _ _ _ ?_ hself
          intro other hother
          simp only [List.mem_append, List.mem_cons] at hother ⊢
          tauto
        · intro other hother
          refine hitem _ ?_
          rw [Term.children_node, Form.children] at hother
          simp only [List.mem_append, List.mem_cons] at hother ⊢
          tauto

/-- What holds of the items of a group holds of whatever a rule of promotion makes of the group, if
it holds of the group when no rule matches and of the construct when one does. -/
theorem forall_subterms_offer {fresh : ι} {property : Term ι → Prop} {label : ι} {heading : Heading}
    {items : List (Term ι)} (hitems : ∀ item ∈ items, ∀ inner ∈ item.subterms, property inner)
    (hgroup : catalogue.plan? Term.form (node label (.group heading items)) = none →
      property (node label (.group heading items)))
    (hbody : ∀ label items others, others ⊆ items → property (node label (.group .block items)) →
      property (node label (.group .block others)))
    (hbuild : ∀ form relisted, Step Term.form (node label (.group heading items))
      (.build form relisted) → property (node fresh (relist relisted form)))
    (hstays : ((node label (.group heading items)).offer .promotion fresh).gone = false) :
    ∀ inner ∈ ((node label (.group heading items)).offer .promotion fresh).term.subterms,
      property inner := by
  cases hplan : Phase.promotion.catalogue.plan? Term.form (node label (.group heading items)) with
  | none =>
      rw [Term.offer_of_none hplan]
      exact Term.forall_subterms_iff.mpr ⟨hgroup hplan, hitems⟩
  | some planned =>
      obtain ⟨rule, edit⟩ := planned
      rw [Term.offer_of_some hplan] at hstays ⊢
      have hstep := step_of_plan? hplan
      cases edit with
      | coerce value => exact absurd hstep not_step_coerce
      | remove => cases hstays
      | lift child =>
          have hchild : items = [child] := children_of_step_lift hstep
          exact hitems child (hchild ▸ List.mem_cons_self)
      | build form relisted =>
          refine Term.forall_subterms_iff.mpr ⟨hbuild form relisted hstep, ?_⟩
          exact forall_subterms_of_fields (fields_of_step hstep) hitems hbody

/-- The four ways in which a property reaches every node that promotion leaves. -/
structure Inductive (fresh : ι) (property : Term ι → Prop) : Prop where
  group : ∀ label heading items,
    catalogue.plan? Term.form (node label (.group heading items)) = none →
      (∀ item ∈ items, ∀ inner ∈ item.subterms, property inner) →
        property (node label (.group heading items))
  body : ∀ label items others, others ⊆ items → property (node label (.group .block items)) →
    property (node label (.group .block others))
  build : ∀ subject form relisted, Step Term.form subject (.build form relisted) →
    (∀ child ∈ subject.children, ∀ inner ∈ child.subterms, property inner) →
      property (node fresh (relist relisted form))

/-- What a rule of promotion makes of a group keeps a property that is inductive. -/
theorem Inductive.offer {fresh : ι} {property : Term ι → Prop} (hproperty : Inductive fresh property)
    {label : ι} {heading : Heading} {items : List (Term ι)}
    (hitems : ∀ item ∈ items, ∀ inner ∈ item.subterms, property inner)
    (hstays : ((node label (.group heading items)).offer .promotion fresh).gone = false) :
    ∀ inner ∈ ((node label (.group heading items)).offer .promotion fresh).term.subterms,
      property inner :=
  forall_subterms_offer hitems (fun hplan => hproperty.group label heading items hplan hitems)
    hproperty.body (fun form relisted hstep => hproperty.build _ form relisted hstep hitems) hstays

/-- A property that is inductive and holds of the leaves of a shallow term holds of every node that
promotion leaves. -/
theorem Inductive.promote {fresh : ι} {property : Term ι → Prop}
    (hproperty : Inductive fresh property) {term : Term ι} (hshallow : term.Shallow)
    (hleaf : ∀ inner ∈ term.subterms, ∀ kind value, inner.form = .leaf kind value → property inner)
    (hstays : (term.promote fresh).gone = false) :
    ∀ inner ∈ (term.promote fresh).term.subterms, property inner := by
  induction term using Term.induction with
  | step term ih =>
      rcases hshallow.leaf_or_group with ⟨kind, value, hform⟩ | ⟨heading, items, hform⟩
      · rw [Term.promote_of_leaf hform]
        refine Term.forall_subterms_iff.mpr ⟨?_, ?_⟩
        · exact hleaf term term.mem_subterms_self kind value hform
        · rw [Term.children, hform]
          exact List.forall_mem_nil _
      · obtain ⟨hterm, hgone⟩ := Term.promote_of_group hform fresh
        rw [hgone] at hstays
        rw [hterm]
        refine hproperty.offer ?_ hstays
        intro item hitem
        obtain ⟨residue, hresidue, hkept, rfl⟩ := Term.mem_remaining.mp hitem
        obtain ⟨child, hchild, rfl⟩ := List.mem_map.mp hresidue
        have hchild : child ∈ term.children := by
          rw [Term.children, hform]
          exact hchild
        exact ih child hchild (hshallow.of_mem_children hchild)
          (fun inner hinner => hleaf inner (Term.mem_subterms_of_mem_children hchild hinner)) hkept

/-! ## One visit is enough -/

/-- Nothing but a provisional grouping matches a rule of promotion. -/
theorem plan?_eq_none {α : Type} {look : α → Form α} {subject : α}
    (hkind : ∀ grouping, (look subject).kind ≠ .group (.provisional grouping)) :
    catalogue.plan? look subject = none := by
  cases hplan : catalogue.plan? look subject with
  | none => rfl
  | some planned =>
      obtain ⟨grouping, hsubject⟩ := exists_kind_subject_of_step (step_of_plan? hplan)
      exact absurd hsubject (hkind grouping)

theorem kind_relist {term : Term ι} {form : Form (Term ι)}
    {relisted : Option (Term ι × List (Term ι))} (hfields : Fields Term.form term form relisted) :
    (relist relisted form).kind = form.kind := by
  cases hfields <;> rfl

theorem inductive_unmatched (fresh : ι) :
    Inductive fresh fun term => catalogue.plan? Term.form term = none where
  group _ _ _ hplan _ := hplan
  body _ _ _ _ _ := plan?_eq_none fun _ heq => nomatch heq
  build subject form relisted hstep _ := by
    apply plan?_eq_none
    intro grouping
    obtain ⟨built, hbuilt⟩ := exists_kind_of_step hstep
    rw [Term.form_node, kind_relist (fields_of_step hstep), hbuilt]
    exact fun heq => nomatch heq

/-- After one visit of a shallow term there is nothing left to promote: children are visited before
their holder, and no rule matches what a rule has built. -/
theorem settled_promote {fresh : ι} {term : Term ι} (hshallow : term.Shallow)
    (hstays : (term.promote fresh).gone = false) :
    (term.promote fresh).term.Settled .promotion := by
  refine (inductive_unmatched fresh).promote hshallow ?_ hstays
  intro inner _ kind value hform
  apply plan?_eq_none
  rw [hform]
  exact fun _ heq => nomatch heq

/-- A run of promotion on a shallow program makes one visit that counts and, if it may, an idle
one. -/
theorem settle_of_shallow {term : Term ι} (hshallow : term.Shallow)
    (hkind : term.kind.isContainer = true) (fresh : ι) (limit : Nat) :
    (term.settle .promotion fresh (limit + 1)).2 = (term.promote fresh).term ∧
      (term.settle .promotion fresh (limit + 2)).1 = true := by
  have hstays : (term.promote fresh).gone = false :=
    congrArg Residue.gone (Term.visit_of_container .promotion fresh hkind)
  have hidle := Term.visit_of_settled (settled_promote hshallow hstays) fresh
  have hrest (limit : Nat) : (term.promote fresh).term.settle .promotion fresh (limit + 1) =
      (true, (term.promote fresh).term) := by
    rw [Term.settle, hidle]
    rfl
  constructor
  · rw [Term.settle, Term.visit]
    split
    · rfl
    · cases limit with
      | zero => rfl
      | succ limit => rw [hrest]
  · rw [Term.settle, Term.visit]
    split
    · rfl
    · rw [hrest]

end AstPromotion.Promotion
