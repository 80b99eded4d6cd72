import AstPromotion.Proofs.Normalization.Settling
import AstPromotion.Proofs.Promotion.Contents

/-! # What is left to do

A node is due in a phase if the phase has yet to read or strip it, to lift what it
wraps, or to promote it. Every rewrite leaves exactly one node less that is due,
so the rewrites of a visit are counted by the nodes.
-/

namespace AstPromotion

namespace Form

variable {α β : Type}

/-- What normalization reads in a leaf. -/
def reading? : Form α → Option Value
  | .leaf kind (.raw text) => Normalization.readValue kind text
  | _ => none

/-- Whether normalization would read or strip a node. -/
def isRough (form : Form α) : Bool :=
  form.reading?.isSome || Normalization.isSeparator form.kind

/-- Whether a phase has something to do with a node, sooner or later. -/
def isDue : Phase → Form α → Bool
  | .normalization, form => form.hasRole .expression || form.isRough
  | .promotion, form => Promotion.isProvisional form.kind

theorem reading?_eq_some_iff {form : Form α} {value : Value} :
    form.reading? = some value ↔ ∃ kind text, form = .leaf kind (.raw text) ∧
      Normalization.readValue kind text = some value := by
  constructor
  · intro hreading
    match form, hreading with
    | .leaf kind (.raw text), hread => exact ⟨kind, text, rfl, hread⟩
  · rintro ⟨kind, text, rfl, hread⟩
    exact hread

theorem isRough_map (f : α → β) (form : Form α) : (form.map f).isRough = form.isRough := by
  rw [isRough, isRough, kind_map]
  congr 1
  cases form with
  | leaf kind value => cases value <;> rfl
  | _ => rfl

theorem isDue_map (f : α → β) (phase : Phase) (form : Form α) :
    (form.map f).isDue phase = form.isDue phase := by
  cases phase with
  | normalization => rw [isDue, isDue, isRough_map, hasRole, kind_map, hasRole]
  | promotion => rw [isDue, isDue, kind_map]

end Form

namespace Term

variable {ι κ : Type} {term : Term ι}

theorem isRough_iff : term.form.isRough = true ↔ term.Rough := by
  simp only [Form.isRough, Bool.or_eq_true, Option.isSome_iff_exists, Form.reading?_eq_some_iff,
    Rough, kind]
  refine or_congr_left ⟨?_, ?_⟩
  · rintro ⟨value, kind, text, hform, hread⟩
    exact ⟨kind, text, value, hform, hread⟩
  · rintro ⟨kind, text, value, hform, hread⟩
    exact ⟨value, kind, text, hform, hread⟩

/-- How many nodes of a term are due. -/
def due (phase : Phase) (term : Term ι) : Nat :=
  term.subterms.countP (·.form.isDue phase)

theorem due_eq (phase : Phase) (term : Term ι) :
    term.due phase =
      (if term.form.isDue phase then 1 else 0) + (term.children.map (due phase)).sum := by
  rw [due, subterms_eq, List.countP_cons, List.countP_flatMap, Nat.add_comm]
  rfl

theorem due_map (f : ι → κ) (phase : Phase) (term : Term ι) :
    (term.map f).due phase = term.due phase := by
  rw [due, subterms_map, List.countP_map, due]
  congr 1
  funext inner
  rw [Function.comp_apply, form_map, Form.isDue_map]

theorem due_of_isDue {phase : Phase} (hdue : term.form.isDue phase = true) :
    term.due phase = 1 + (term.children.map (due phase)).sum := by
  rw [due_eq, if_pos hdue]

theorem due_of_not_isDue {phase : Phase} (hdue : term.form.isDue phase = false) :
    term.due phase = (term.children.map (due phase)).sum := by
  rw [due_eq, hdue, if_neg Bool.false_ne_true, Nat.zero_add]

/-- Whether a group is due does not depend on its items. -/
theorem exists_due_of_group (phase : Phase) (label : ι) (heading : Heading) :
    ∃ own, ∀ items, (node label (.group heading items)).due phase =
      own + (items.map (due phase)).sum := by
  refine ⟨if (Form.group heading ([] : List (Term ι))).isDue phase then 1 else 0, fun items => ?_⟩
  rw [due_eq]
  cases phase <;> rfl

end Term

namespace Normalization

variable {ι : Type} {fresh : ι} {term : Term ι}

/-- Of the leaves the rough ones are due. -/
theorem due_of_leaf {kind : LeafKind} {value : Value} (hform : term.form = .leaf kind value) :
    term.due .normalization = if term.form.isRough then 1 else 0 := by
  have hrole : term.form.hasRole .expression = false := by
    rw [hform]
    rcases kind with _ | _ | (_ | _) <;> rfl
  rw [Term.due_eq, Form.isDue, hrole, Bool.false_or, Term.children, hform]
  rfl

theorem due_of_rough (hrough : term.Rough) : term.due .normalization = 1 := by
  have hleaf : ∃ kind value, term.form = .leaf kind value := by
    rcases hrough with ⟨kind, text, -, hform, -⟩ | hseparator
    · exact ⟨kind, .raw text, hform⟩
    · rw [Term.kind] at hseparator
      cases hform : term.form with
      | leaf kind value => exact ⟨kind, value, rfl⟩
      | group heading items =>
          rw [hform] at hseparator
          cases heading <;> cases hseparator
      | _ =>
          rw [hform] at hseparator
          cases hseparator
  obtain ⟨kind, value, hform⟩ := hleaf
  rw [due_of_leaf hform, if_pos (Term.isRough_iff.mpr hrough)]

/-- Parentheses are neither read nor stripped. -/
theorem due_of_sign {sign : Punctuation} (hkind : term.kind = .leaf (.mark (.punctuation sign)))
    (hsign : isSeparator term.kind = false) : term.due .normalization = 0 := by
  obtain ⟨value, hform⟩ := Form.exists_of_kind_leaf hkind
  rw [due_of_leaf hform, if_neg]
  rw [Term.isRough_iff]
  rintro (⟨kind, text, read, hleaf, hread⟩ | hseparator)
  · cases hform.symm.trans hleaf
    cases hread
  · rw [hsign] at hseparator
    cases hseparator

/-- What normalization does to a node settles one that is due. -/
theorem due_offer (fresh : ι) (term : Term ι) :
    (term.offer .normalization fresh).left (Term.due .normalization) +
      (term.offer .normalization fresh).events.length = term.due .normalization := by
  rw [Residue.left]
  cases offered fresh term with
  | unmatched hplan hoffer =>
      rw [hoffer]
      rfl
  | read hform hread hterm hgone hevents =>
      obtain ⟨rule, subject, hevents⟩ := hevents
      have hsmooth := mt Term.isRough_iff.mp (not_rough_of_readValue hread term.label)
      rw [hgone, hterm, hevents, due_of_rough (Or.inl ⟨_, _, _, hform, hread⟩),
        due_of_leaf (Term.form_node _ _), if_neg hsmooth]
      rfl
  | lifted hsubject hchild hchildren hterm hgone hevents =>
      obtain ⟨rule, subject, kind, hevents⟩ := hevents
      have hdue : term.due .normalization = _ :=
        Term.due_of_isDue (by rw [Form.isDue, hsubject, Bool.true_or])
      rw [hgone, hterm, hevents, hdue]
      rcases hchildren with hchildren | ⟨opening, closing, hchildren, hopening, hclosing⟩
      · rw [hchildren]
        simp [Nat.add_comm]
      · rw [hchildren]
        simp [due_of_sign hopening (by rw [hopening]; rfl), due_of_sign hclosing (by rw [hclosing]; rfl),
          Nat.add_comm]
  | stripped hsubject hoffer =>
      obtain ⟨rule, subject, hoffer⟩ := hoffer
      rw [hoffer, due_of_rough (Or.inr hsubject)]
      rfl

/-- The rewrites of a visit are as many as the nodes that are due no more. -/
theorem due_normalize (hshallow : term.Shallow) :
    (term.normalize fresh).left (Term.due .normalization) + (term.normalize fresh).events.length =
      term.due .normalization := by
  rw [← List.countP_true]
  refine spends_normalize (Term.exists_due_of_group .normalization) (fun term _ => ?_) hshallow
  rw [List.countP_true]
  exact due_offer fresh term

end Normalization

namespace Promotion

open Term (node relist)
open Term.SourceOrder (isDropped)

variable {ι : Type} {fresh : ι} {term subject : Term ι} {form : Form (Term ι)}
  {relisted : Option (Term ι × List (Term ι))}

theorem due_of_isDropped (hdropped : isDropped term = true) : term.due .promotion = 0 := by
  obtain ⟨⟨kind, value, hform⟩, -⟩ := Term.SourceOrder.leaf_of_isDropped hdropped
  rw [Term.due_of_not_isDue (by rw [hform]; rfl), Term.children, hform]
  rfl

theorem due_filter (terms : List (Term ι)) :
    ((terms.filter (!isDropped ·)).map (Term.due .promotion)).sum =
      (terms.map (Term.due .promotion)).sum := by
  induction terms with
  | nil => rfl
  | cons term rest ih =>
      cases hdropped : isDropped term with
      | true =>
          rw [List.filter_cons_of_neg (by simp [hdropped]), List.map_cons, List.sum_cons,
            due_of_isDropped hdropped, ih, Nat.zero_add]
      | false =>
          rw [List.filter_cons_of_pos (by simp [hdropped]), List.map_cons, List.map_cons,
            List.sum_cons, List.sum_cons, ih]

theorem due_of_construct {built : Construct} (hkind : term.kind = .construct built) :
    term.due .promotion = (term.children.map (Term.due .promotion)).sum := by
  apply Term.due_of_not_isDue
  rw [Form.isDue, ← Term.kind, hkind]
  rfl

/-- The statement that holds a constructor is none of those that are due. -/
theorem due_of_constructorOf? {statement function : Term ι}
    (hfound : constructorOf? Term.form statement = some function) :
    statement.due .promotion = function.due .promotion := by
  rcases (eq_or_eq_of_constructorOf? hfound).1 with rfl | hform
  · rfl
  · have hkind : statement.kind = .construct .functionDefinition := by rw [Term.kind, hform]; rfl
    rw [due_of_construct hkind, Term.children, hform]
    simp [Form.children]

/-- The groupings below the fields of a construct are those below the grouping it replaces. -/
theorem due_fields (hstep : Step Term.form subject (.build form relisted)) :
    ((relist relisted form).children.map (Term.due .promotion)).sum =
      (subject.children.map (Term.due .promotion)).sum := by
  cases relisted with
  | none =>
      by_cases hwrite : ∃ callee arguments value, form = .arrayIndexWrite callee arguments value
      · obtain ⟨callee, arguments, value, rfl⟩ := hwrite
        obtain ⟨target, mark, hchildren, htarget, hmark⟩ := exists_of_step_indexWrite hstep
        have hcall : target.kind = .construct .callExpression := by rw [Term.kind, htarget]; rfl
        have hopened : target.due .promotion = callee.due .promotion + arguments.due .promotion := by
          rw [due_of_construct hcall, Term.children, htarget]
          simp [Form.children]
        rw [Term.children, hchildren]
        simp [relist, Form.children, hopened, due_of_isDropped (isDropped_of_assignment hmark), Nat.add_assoc]
      · have hfilter := filter_children_of_step hstep fun callee arguments value heq =>
          hwrite ⟨callee, arguments, value, heq⟩
        rw [← due_filter subject.children, hfilter, due_filter]
        rfl
  | some relisted =>
      obtain ⟨word, name, opening, body, closing, items, function, others, hchildren, hword, -,
        hbraced, hbody, htaken, rfl, rfl⟩ := exists_of_step_relisted hstep
      obtain ⟨before, statement, after, rfl, rfl, hfound, -⟩ := exists_of_takeConstructor? htaken
      have hgroup (label : ι) (items : List (Term ι)) :
          (node label (.group .block items)).due .promotion =
            (items.map (Term.due .promotion)).sum :=
        Term.due_of_not_isDue rfl
      have hextracted : body.due .promotion =
          function.due .promotion + (body.withItems (before ++ after)).due .promotion := by
        rw [form_withItems hbody, ← body.node_eta, hbody, hgroup, Term.label_node, hgroup,
          ← due_of_constructorOf? hfound]
        simp only [List.map_append, List.map_cons, List.sum_append, List.sum_cons]
        omega
      rw [Term.children, hchildren]
      simp [relist, Form.children, due_of_isDropped (isDropped_of_keyword hword),
        due_of_isDropped (isDropped_of_sign hbraced.opening),
        due_of_isDropped (isDropped_of_sign hbraced.closing), hextracted]

/-- What promotion does to a node settles one that is due. -/
theorem due_offer (fresh : ι) (term : Term ι) :
    (term.offer .promotion fresh).left (Term.due .promotion) +
      (term.offer .promotion fresh).events.length = term.due .promotion := by
  cases hplan : Phase.promotion.catalogue.plan? Term.form term with
  | none =>
      rw [Term.offer_of_none hplan]
      rfl
  | some planned =>
      obtain ⟨rule, edit⟩ := planned
      have hstep := step_of_plan? hplan
      have hdue : term.due .promotion = 1 + (term.children.map (Term.due .promotion)).sum := by
        obtain ⟨grouping, hsubject⟩ := exists_kind_subject_of_step hstep
        exact Term.due_of_isDue (by rw [Form.isDue, hsubject]; rfl)
      rw [Term.offer_of_some hplan, hdue, Residue.left]
      cases edit with
      | coerce value => exact absurd hstep not_step_coerce
      | remove =>
          rw [Term.children, children_of_step_remove hstep]
          rfl
      | lift child =>
          rw [Term.children, children_of_step_lift hstep]
          exact Nat.add_comm _ _
      | build form relisted =>
          obtain ⟨built, hbuilt⟩ := exists_kind_of_step hstep
          have hkind : (node fresh (relist relisted form)).kind = .construct built := by
            rw [Term.kind_node, kind_relist (fields_of_step hstep), hbuilt]
          rw [← due_fields hstep]
          exact (congrArg (· + 1) (due_of_construct hkind)).trans (Nat.add_comm _ _)

theorem events_promote {heading : Heading} {items : List (Term ι)}
    (hform : term.form = .group heading items) :
    (term.promote fresh).events = items.flatMap (fun item => (item.promote fresh).events) ++
      ((node term.label (.group heading (Term.remaining (items.map (Term.promote fresh))))).offer
        .promotion fresh).events := by
  rw [Term.promote_eq, Term.rebuild_of_group hform, Term.eventsBelow, hform, Form.map, Form.children,
    List.flatMap_map]

/-- The rewrites of a visit of a shallow term are as many as the groupings that are gone. -/
theorem due_promote (hshallow : term.Shallow) :
    (term.promote fresh).left (Term.due .promotion) + (term.promote fresh).events.length =
      term.due .promotion := by
  induction term using Term.induction with
  | step term ih =>
      rcases hshallow.leaf_or_group with ⟨kind, value, hform⟩ | ⟨heading, items, hform⟩
      · rw [Term.promote_of_leaf hform]
        rfl
      · have hbelow : ∀ item ∈ items, (item.promote fresh).left (Term.due .promotion) +
            (item.promote fresh).events.length = item.due .promotion := by
          intro item hitem
          have hchild : item ∈ term.children := by
            rw [Term.children, hform]
            exact hitem
          exact ih item hchild (hshallow.of_mem_children hchild)
        obtain ⟨own, hown⟩ := Term.exists_due_of_group .promotion term.label heading
        have hterm := hown items
        rw [← hform, Term.node_eta] at hterm
        -- What is offered is the group that the visits of the items have left.
        have hoffer := due_offer fresh
          (node term.label (.group heading (Term.remaining (items.map (Term.promote fresh)))))
        rw [hown, Term.sum_remaining, List.map_map] at hoffer
        obtain ⟨hresult, hgone⟩ := Term.promote_of_group hform fresh
        calc (term.promote fresh).left (Term.due .promotion) + (term.promote fresh).events.length
          _ = own + (items.map (Residue.left (Term.due .promotion) ∘ Term.promote fresh)).sum +
              (items.map fun item => (item.promote fresh).events.length).sum := by
            rw [← hoffer, events_promote hform, List.length_append, List.length_flatMap, Residue.left,
              hresult, hgone, Residue.left]
            omega
          _ = own + (items.map (Term.due .promotion)).sum := by
            rw [← List.map_congr_left hbelow, List.sum_map_add, Nat.add_assoc]
            rfl
          _ = term.due .promotion := hterm.symm

end Promotion

/-- The rewrites of a visit of a shallow term are as many as the nodes that are due no more. -/
theorem Term.due_visit {ι : Type} {phase : Phase} {fresh : ι} {term : Term ι}
    (hshallow : term.Shallow) (hstays : (term.visit phase fresh).gone = false) :
    (term.visit phase fresh).term.due phase + (term.visit phase fresh).events.length =
      term.due phase := by
  have hspent : (term.visit phase fresh).left (due phase) +
      (term.visit phase fresh).events.length = term.due phase := by
    cases phase with
    | normalization => exact Normalization.due_normalize hshallow
    | promotion => exact Promotion.due_promote hshallow
  rwa [Residue.left, hstays, if_neg Bool.false_ne_true] at hspent

end AstPromotion
