import AstPromotion.Proofs.Promotion.Invariant
import AstPromotion.Proofs.Spelling

/-! # What promotion takes in

The words and marks that a rule leaves out where it builds a construct are those
that the construct stands for. Whatever tokens weigh, promotion keeps the weight
of a term.
-/

namespace AstPromotion.Promotion

open Term (node relist tally)
open Token (parentheses braces weigh weigh_append weigh_cons weigh_nil)

variable {ι : Type}

section Spelled

variable (weight : Token → Int) {keyword opening inner closing left body right : Term ι}

theorem tally_parentheses (hopening : opening.form.kind = signKind .leftParen)
    (hclosing : closing.form.kind = signKind .rightParen) :
    opening.tally weight + closing.tally weight = weigh weight parentheses := by
  rw [Term.tally_of_mark hopening, Term.tally_of_mark hclosing, parentheses, weigh_cons, weigh_cons,
    weigh_nil, Int.add_zero]

theorem tally_braces (hbraced : Braced Term.form left body right) :
    left.tally weight + right.tally weight = weigh weight braces := by
  rw [Term.tally_of_mark hbraced.opening, Term.tally_of_mark hbraced.closing, braces, weigh_cons,
    weigh_cons, weigh_nil, Int.add_zero]

theorem tally_parameterized
    (hparameterized : Parameterized Term.form opening inner closing left body right) :
    opening.tally weight + closing.tally weight + (left.tally weight + right.tally weight) =
      weigh weight (parentheses ++ braces) := by
  rw [tally_parentheses weight hparameterized.opening hparameterized.closing,
    tally_braces weight hparameterized.braced, weigh_append]

theorem tally_guarded {word : String}
    (hguarded : Guarded Term.form word keyword opening inner closing left body right) :
    keyword.tally weight + (opening.tally weight + closing.tally weight) +
        (left.tally weight + right.tally weight) =
      weigh weight (.word word :: parentheses ++ braces) := by
  rw [Term.tally_of_keyword hguarded.keyword, tally_parentheses weight hguarded.opening
    hguarded.closing, tally_braces weight hguarded.braced, weigh_append, weigh_cons]

end Spelled

variable {weight : Token → Int}

/-- A construct that takes its fields from its subject weighs what is below the subject. -/
theorem tally_of_build {fresh : ι} {subject : Term ι} {form : Form (Term ι)}
    (hstep : Step Term.form subject (.build form none)) :
    (node fresh form).tally weight = (subject.children.map (tally weight)).sum := by
  generalize hedit : Edit.build form none = edit at hstep
  rw [Term.children]
  cases hstep with
  | unary _ hchildren | binary _ hchildren | comparison _ hchildren
  | functionDefinition _ hchildren | classDefinition _ hchildren =>
      cases hedit
      rw [hchildren, Term.tally_of_construct rfl rfl]
      exact Int.zero_add _
  | assignment _ hchildren _ hmark =>
      cases hedit
      rw [hchildren, Term.tally_of_construct rfl rfl]
      simp only [Construct.spelling, Term.children_node, Form.children, weigh_cons, weigh_nil,
        List.map_cons, List.sum_cons, Term.tally_of_mark hmark]
      omega
  | @indexWrite target mark value callee arguments _ hchildren htarget hmark =>
      cases hedit
      -- The call that is opened up leaves its parentheses to the index write.
      have hcall : target.kind = .construct .callExpression := by rw [Term.kind, htarget]; rfl
      rw [hchildren, Term.tally_of_construct rfl rfl, List.map_cons, List.sum_cons,
        Term.tally_of_construct hcall (by rw [htarget]; rfl)]
      simp only [Construct.spelling, Term.children, Term.form_node, htarget, Form.children,
        weigh_append, weigh_cons, weigh_nil, List.map_cons, List.map_nil, List.sum_cons,
        List.sum_nil, Term.tally_of_mark hmark]
      omega
  | declaration _ hchildren hword =>
      cases hedit
      rw [hchildren, Term.tally_of_construct rfl rfl]
      simp only [Construct.spelling, Term.children_node, Form.children, weigh_cons, weigh_nil,
        List.map_cons, List.sum_cons, Term.tally_of_keyword hword]
      omega
  | initialisation _ hchildren hword _ hmark =>
      cases hedit
      rw [hchildren, Term.tally_of_construct rfl rfl]
      simp only [Construct.spelling, Term.children_node, Form.children, weigh_cons, weigh_nil,
        List.map_cons, List.sum_cons, Term.tally_of_keyword hword, Term.tally_of_mark hmark]
      omega
  | call _ hchildren hopening _ hclosing =>
      cases hedit
      have hspelled := tally_parentheses weight hopening hclosing
      rw [hchildren, Term.tally_of_construct rfl rfl]
      simp only [Construct.spelling, Term.children_node, Form.children, List.map_cons,
        List.sum_cons]
      omega
  | member _ hchildren _ hdot =>
      cases hedit
      rw [hchildren, Term.tally_of_construct rfl rfl]
      simp only [Construct.spelling, Term.children_node, Form.children, weigh_cons, weigh_nil,
        List.map_cons, List.sum_cons, Term.tally_of_mark hdot]
      omega
  | classLiteral _ hchildren hword _ hbraced =>
      rw [planClass] at hedit
      split at hedit
      · cases hedit
      · cases hedit
        have hspelled := tally_braces weight hbraced
        rw [hchildren, Term.tally_of_construct rfl rfl]
        simp only [Construct.spelling, Term.children_node, Form.children, Option.toList_none,
          List.cons_append, List.nil_append, weigh_cons, List.map_cons, List.sum_cons,
          Term.tally_of_keyword hword]
        omega
  | namedFunction _ hchildren hword _ hparameterized
  | unnamedFunction _ hchildren hword hparameterized =>
      cases hedit
      have hspelled := tally_parameterized weight hparameterized
      rw [hchildren, Term.tally_of_construct rfl rfl]
      simp only [Construct.spelling, Term.children_node, Form.children, Option.toList_none,
        Option.toList_some, List.cons_append, List.nil_append, weigh_cons, List.map_cons,
        List.sum_cons, Term.tally_of_keyword hword]
      omega
  | ifStatement _ hchildren hguarded | whileStatement _ hchildren hguarded =>
      cases hedit
      have hspelled := tally_guarded weight hguarded
      rw [hchildren, Term.tally_of_construct rfl rfl]
      simp only [Construct.spelling, Term.children_node, Form.children, Option.toList_none,
        List.map_cons, List.sum_cons]
      omega
  | @ifElse _ _ _ _ _ _ _ _ _ alternate _ _ hchildren hguarded hjoin hbraced =>
      cases hedit
      have hspelled := tally_guarded weight hguarded
      have hbraces := tally_braces weight hbraced
      have hblock : alternate.kind = .group .block := hbraced.body
      rw [hchildren, Term.tally_of_alternate (Term.form_node _ _), if_pos hblock]
      simp only [Construct.spelling, List.map_cons, List.map_nil, List.sum_cons, List.sum_nil,
        Term.tally_of_keyword hjoin]
      omega
  | @elseIf _ _ _ _ _ _ _ _ alternate _ hchildren hguarded hjoin hkind =>
      cases hedit
      have hspelled := tally_guarded weight hguarded
      have hblock : alternate.kind ≠ .group .block := by
        intro heq
        cases heq.symm.trans hkind
      rw [hchildren, Term.tally_of_alternate (Term.form_node _ _), if_neg hblock]
      simp only [Construct.spelling, List.map_cons, List.map_nil, List.sum_cons, List.sum_nil,
        Term.tally_of_keyword hjoin]
      omega
  | unwrapIf | unwrapSettled | dropEmpty => cases hedit

/-- The statement that holds a constructor weighs what the constructor does. -/
theorem tally_of_constructorOf? {statement function : Term ι}
    (hfound : constructorOf? Term.form statement = some function) :
    statement.tally weight = function.tally weight := by
  rcases (eq_or_eq_of_constructorOf? hfound).1 with rfl | hform
  · rfl
  · have hkind : statement.kind = .construct .functionDefinition := by rw [Term.kind, hform]; rfl
    rw [Term.tally_of_construct hkind (by rw [hform]; rfl), Term.children, hform]
    simp only [Construct.spelling, Form.children, weigh_nil, List.map_cons, List.map_nil,
      List.sum_cons, List.sum_nil, Int.zero_add, Int.add_zero]

/-- A body that gives up its constructor loses what the constructor weighs. -/
theorem tally_of_takeConstructor? {body function : Term ι} {items others : List (Term ι)}
    (hbody : body.form = .group .block items)
    (htaken : takeConstructor? Term.form items = some (function, others)) :
    body.tally weight = function.tally weight + (body.withItems others).tally weight := by
  obtain ⟨before, statement, after, rfl, rfl, hfound, -⟩ := exists_of_takeConstructor? htaken
  rw [form_withItems hbody, Term.tally_of_group hbody, Term.tally_of_group (Term.form_node _ _),
    ← tally_of_constructorOf? hfound]
  simp only [List.map_append, List.map_cons, List.sum_append, List.sum_cons]
  omega

/-- What a rule builds weighs what is below its subject. -/
theorem tally_of_step {fresh : ι} {subject : Term ι} {form : Form (Term ι)}
    {relisted : Option (Term ι × List (Term ι))}
    (hstep : Step Term.form subject (.build form relisted)) :
    (node fresh (relist relisted form)).tally weight = (subject.children.map (tally weight)).sum := by
  cases relisted with
  | none => exact tally_of_build hstep
  | some relisted =>
      obtain ⟨word, name, opening, body, closing, items, function, others, hchildren, hword, -,
        hbraced, hbody, htaken, rfl, rfl⟩ := exists_of_step_relisted hstep
      have hspelled := tally_braces weight hbraced
      have hextracted : body.tally weight = _ := tally_of_takeConstructor? hbody htaken
      rw [Term.children, hchildren, relist, Term.tally_of_construct rfl rfl]
      simp only [Construct.spelling, Term.children_node, Form.children, Option.toList_some,
        List.cons_append, List.nil_append, weigh_cons, List.map_cons, List.sum_cons,
        Term.tally_of_keyword hword, hextracted]
      omega

/-- What the rules make of a group weighs what the group does; a group that is removed weighs
nothing. -/
theorem tally_offer {fresh : ι} {term : Term ι} {heading : Heading} {items : List (Term ι)}
    (hform : term.form = .group heading items) :
    ((term.offer .promotion fresh).gone = true → term.tally weight = 0) ∧
      (term.offer .promotion fresh).term.tally weight = term.tally weight := by
  cases hplan : Phase.promotion.catalogue.plan? Term.form term with
  | none =>
      rw [Term.offer_of_none hplan]
      exact ⟨fun h => absurd h Bool.false_ne_true, rfl⟩
  | some planned =>
      obtain ⟨rule, edit⟩ := planned
      have hstep := step_of_plan? hplan
      have hitems : items = term.children := by
        rw [Term.children, hform]
        rfl
      rw [Term.offer_of_some hplan, Term.tally_of_group hform, hitems]
      cases edit with
      | build form relisted => exact ⟨fun h => absurd h Bool.false_ne_true, tally_of_step hstep⟩
      | lift child =>
          rw [Term.children, children_of_step_lift hstep]
          exact ⟨fun h => absurd h Bool.false_ne_true, (Int.add_zero _).symm⟩
      | remove =>
          rw [Term.children, children_of_step_remove hstep, Term.enact, Term.tally_of_group hform,
            hitems, Term.children, children_of_step_remove hstep]
          exact ⟨fun _ => rfl, rfl⟩
      | coerce value => exact absurd hstep not_step_coerce

/-- Promotion keeps what a shallow term weighs. -/
theorem tally_promote {fresh : ι} {term : Term ι} (hshallow : term.Shallow) :
    ((term.promote fresh).gone = true → term.tally weight = 0) ∧
      (term.promote fresh).term.tally weight = term.tally weight := by
  induction term using Term.induction with
  | step term ih =>
      rcases hshallow.leaf_or_group with ⟨kind, value, hform⟩ | ⟨heading, items, hform⟩
      · rw [Term.promote_of_leaf hform]
        exact ⟨fun h => absurd h Bool.false_ne_true, rfl⟩
      · have hbelow : ∀ item ∈ items, ((item.promote fresh).gone = true → item.tally weight = 0) ∧
            (item.promote fresh).term.tally weight = item.tally weight := by
          intro item hitem
          have hchild : item ∈ term.children := by
            rw [Term.children, hform]
            exact hitem
          exact ih item hchild (hshallow.of_mem_children hchild)
        have hitems : (node term.label (.group heading
            (Term.remaining (items.map (Term.promote fresh))))).tally weight = term.tally weight := by
          rw [Term.tally_of_group (Term.form_node _ _), Term.tally_of_group hform]
          exact Term.sum_remaining_of_keeps hbelow
        obtain ⟨hterm, hgone⟩ := Term.promote_of_group hform fresh
        rw [hterm, hgone, ← hitems]
        exact tally_offer (Term.form_node _ _)

end AstPromotion.Promotion
