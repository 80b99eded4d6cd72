import AstPromotion.Proofs.Language.Syntax
import AstPromotion.Proofs.Validity

/-! # Trees of the surface language are accepted

Every part of a tree may stand where it does: there is no grouping in it and no
keyword, bracket or unread text, and an operator is only below a construct that
holds it.
-/

namespace AstPromotion.Language

open Term (node)

/-- A tree that validation accepts wherever it stands. -/
structure Accepted (tree : Term Unit) : Prop where
  root : ∀ holder, tree.form.reason? holder = none
  fits : tree.Fits

/-- Only leaves and groupings are ever left over. -/
theorem reason?_eq_none {form : Form (Term Unit)}
    (hform : (∃ built, form.kind = .construct built) ∨ form.kind.isContainer = true)
    (holder : Option Kind) : form.reason? holder = none := by
  have hroles : ∀ kind : Kind, (∃ built, kind = .construct built) ∨ kind.isContainer = true →
      kind.hasRole .primitive = false ∧ kind.hasRole .punctuation = false ∧
        kind.hasRole .keyword = false ∧ kind.hasRole .operator = false ∧
          kind.hasRole .literalValue = false := by
    rintro kind (⟨built, rfl⟩ | hkind)
    · exact ⟨rfl, rfl, rfl, rfl, rfl⟩
    · revert kind
      decide
  obtain ⟨hprimitive, hpunctuation, hkeyword, hoperator, hliteral⟩ := hroles form.kind hform
  simp [Form.reason?, Form.hasRole, hprimitive, hpunctuation, hkeyword, hoperator, hliteral]

theorem accepted_leaf {literal : Literal} {value : Value} (hvalue : value.isRaw = false) :
    Accepted (leaf (.literal literal) value) where
  root := fun holder => by
    simp [Form.reason?, Form.hasRole, Form.kind, Kind.hasRole, Form.value?, hvalue]
  fits := Term.fits_iff.mpr ⟨fun _ hchild => (nomatch hchild), fun _ hchild => (nomatch hchild)⟩

theorem reason?_operatorLeaf (sign : Operator) {holder : Kind} (hholds : holder.holdsOperator = true) :
    (operatorLeaf sign).form.reason? (some holder) = none := by
  simp [operatorLeaf, Form.reason?, Form.hasRole, Form.kind, Kind.hasRole, hholds]

theorem fits_operatorLeaf (sign : Operator) : (operatorLeaf sign).Fits :=
  Term.fits_iff.mpr ⟨fun _ hchild => (nomatch hchild), fun _ hchild => (nomatch hchild)⟩

/-- A construct or container is accepted with what is below it. An operator may only be below a
construct that holds one. -/
theorem accepted_node {form : Form (Term Unit)}
    (hform : (∃ built, form.kind = .construct built) ∨ form.kind.isContainer = true)
    (hchildren : ∀ child ∈ form.children, Accepted child ∨
      form.kind.holdsOperator = true ∧ ∃ sign, child = operatorLeaf sign) :
    Accepted (node () form) where
  root := reason?_eq_none hform
  fits := by
    refine Term.fits_iff.mpr ⟨?_, ?_⟩
    · intro child hchild
      rcases hchildren child hchild with haccepted | ⟨hholds, sign, rfl⟩
      · exact haccepted.root _
      · exact reason?_operatorLeaf sign hholds
    · intro child hchild
      rcases hchildren child hchild with haccepted | ⟨-, sign, rfl⟩
      · exact haccepted.fits
      · exact fits_operatorLeaf sign

theorem accepted_construct {form : Form (Term Unit)} {built : Construct}
    (hkind : form.kind = .construct built) (hchildren : ∀ child ∈ form.children, Accepted child) :
    Accepted (node () form) :=
  accepted_node (Or.inl ⟨built, hkind⟩) fun child hchild => Or.inl (hchildren child hchild)

theorem accepted_list {heading : Heading} {items : List (Term Unit)}
    (hkind : (Kind.group heading.kind).isContainer = true) (hitems : ∀ item ∈ items, Accepted item) :
    Accepted (list heading items) :=
  accepted_node (Or.inr hkind) fun child hchild => Or.inl (hitems child hchild)

theorem Name.accepted (name : Name) : Accepted name.ast :=
  accepted_leaf rfl

theorem Atom.accepted (atom : Atom) : Accepted atom.ast := by
  cases atom <;> exact accepted_leaf rfl

theorem accepted_names (names : List Name) :
    Accepted (list .argumentList (names.map Name.ast)) := by
  refine accepted_list rfl ?_
  rw [List.forall_mem_map]
  exact fun name _ => name.accepted

theorem accepted_statementTerm {expression : Term Unit} (hexpression : Accepted expression) :
    Accepted (statementTerm expression) := by
  unfold statementTerm
  split
  next => exact accepted_construct rfl (List.forall_mem_singleton.mpr hexpression)
  next => exact hexpression

theorem accepted_of_definedConstructor? {statement function : Term Unit}
    (hstatement : Accepted statement) (hfunction : definedConstructor? statement = some function) :
    Accepted function := by
  rw [definedConstructor?] at hfunction
  split at hfunction
  next inner hform =>
      split at hfunction
      next hliteral =>
          split at hfunction
          next =>
              cases hfunction
              refine ⟨reason?_eq_none (Or.inl ⟨.functionLiteral, by rw [hliteral]; rfl⟩), ?_⟩
              refine (Term.fits_iff.mp hstatement.fits).2 function ?_
              rw [Term.children, hform]
              exact List.mem_cons_self
          next => cases hfunction
      next => cases hfunction
  next => cases hfunction

theorem accepted_classLiteral (name : Name) {statements : List (Term Unit)}
    (hstatements : ∀ statement ∈ statements, Accepted statement) :
    Accepted (classLiteral name.ast statements) := by
  refine accepted_construct rfl ?_
  intro child hchild
  rw [Form.children, List.cons_append, List.mem_cons, List.mem_append, Option.mem_toList,
    List.mem_singleton] at hchild
  rcases hchild with rfl | hconstructor | rfl
  · exact name.accepted
  · obtain ⟨statement, hstatement, hfunction⟩ := List.exists_of_findSome?_eq_some hconstructor
    exact accepted_of_definedConstructor? (hstatements statement hstatement) hfunction
  · exact accepted_list rfl fun item hitem => hstatements item (List.mem_of_mem_eraseP hitem)

theorem accepted_block {items : List (Term Unit)} (hitems : ∀ item ∈ items, Accepted item) :
    Accepted (list .block items) :=
  accepted_list rfl hitems

section Fields

variable {first second third : Term Unit}

theorem forall_two (hfirst : Accepted first) (hsecond : Accepted second) :
    ∀ child ∈ [first, second], Accepted child :=
  List.forall_mem_cons.mpr ⟨hfirst, List.forall_mem_singleton.mpr hsecond⟩

theorem forall_three (hfirst : Accepted first) (hsecond : Accepted second) (hthird : Accepted third) :
    ∀ child ∈ [first, second, third], Accepted child :=
  List.forall_mem_cons.mpr ⟨hfirst, forall_two hsecond hthird⟩

/-- Two operands with their operator between them. -/
theorem accepted_operation {form : Form (Term Unit)} {sign : Operator}
    (hkind : form.kind = .construct .binaryExpression ∨ form.kind = .construct .comparisonExpression)
    (hchildren : form.children = [first, operatorLeaf sign, second]) (hfirst : Accepted first)
    (hsecond : Accepted second) : Accepted (node () form) := by
  have hholds : form.kind.holdsOperator = true := by
    rcases hkind with hkind | hkind <;> rw [hkind] <;> rfl
  refine accepted_node (Or.inl (hkind.elim (fun h => ⟨_, h⟩) fun h => ⟨_, h⟩)) ?_
  rw [hchildren]
  exact List.forall_mem_cons.mpr ⟨Or.inl hfirst,
    List.forall_mem_cons.mpr ⟨Or.inr ⟨hholds, sign, rfl⟩, List.forall_mem_singleton.mpr (Or.inl hsecond)⟩⟩

end Fields

mutual

theorem Expression.accepted : ∀ expression : Expression, Accepted expression.ast
  | .atom atom => atom.accepted
  | .compound compound => compound.accepted

theorem Compound.accepted : ∀ compound : Compound, Accepted compound.ast
  | .unary sign operand =>
    accepted_node (Or.inl ⟨.unaryExpression, rfl⟩) <|
      List.forall_mem_cons.mpr ⟨Or.inr ⟨rfl, sign, rfl⟩,
        List.forall_mem_singleton.mpr (Or.inl operand.accepted)⟩
  | .arithmetic left _ right => accepted_operation (Or.inl rfl) rfl left.accepted right.accepted
  | .comparison left _ right => accepted_operation (Or.inr rfl) rfl left.accepted right.accepted
  | .parenthesized inner => inner.accepted
  | .access access => access.accepted
  | .function none parameters body =>
    accepted_construct rfl (forall_two (accepted_names parameters) (accepted_block (accepted_body body)))
  | .function (some name) parameters body =>
    accepted_construct rfl (forall_three name.accepted (accepted_names parameters)
      (accepted_block (accepted_body body)))

theorem Access.accepted : ∀ access : Access, Accepted access.ast
  | .call callee arguments =>
    accepted_construct rfl
      (forall_two callee.accepted (accepted_list rfl (accepted_each arguments)))
  | .member _ object property =>
    accepted_construct rfl (forall_two object.accepted property.accepted)

theorem Statement.accepted : ∀ statement : Statement, ∀ tree ∈ statement.asts, Accepted tree
  | .empty => fun _ htree => nomatch htree
  | .expression expression =>
    List.forall_mem_singleton.mpr (accepted_statementTerm expression.accepted)
  | .declaration name =>
    List.forall_mem_singleton.mpr (accepted_construct rfl (List.forall_mem_singleton.mpr name.accepted))
  | .initialisation name value | .assignment name value =>
    List.forall_mem_singleton.mpr (accepted_construct rfl (forall_two name.accepted value.accepted))
  | .write (.call callee arguments) value =>
    List.forall_mem_singleton.mpr <| accepted_construct rfl <|
      forall_three callee.accepted (accepted_list rfl (accepted_each arguments)) value.accepted
  | .write (.member _ object property) value =>
    List.forall_mem_singleton.mpr <| accepted_construct rfl <|
      forall_two (accepted_construct rfl (forall_two object.accepted property.accepted)) value.accepted
  | .conditional conditional => List.forall_mem_singleton.mpr conditional.accepted
  | .loop test body =>
    List.forall_mem_singleton.mpr
      (accepted_construct rfl (forall_two test.accepted (accepted_block (accepted_body body))))
  | .classDefinition name body =>
    List.forall_mem_singleton.mpr <| accepted_construct rfl <|
      List.forall_mem_singleton.mpr (accepted_classLiteral name (accepted_body body))

theorem Conditional.accepted : ∀ conditional : Conditional, Accepted conditional.ast
  | .ifThen test body =>
    accepted_construct rfl (forall_two test.accepted (accepted_block (accepted_body body)))
  | .ifElse test body alternate =>
    accepted_construct rfl (forall_three test.accepted (accepted_block (accepted_body body))
      (accepted_block (accepted_body alternate)))
  | .elseIf test body alternate =>
    accepted_construct rfl
      (forall_three test.accepted (accepted_block (accepted_body body)) alternate.accepted)

theorem accepted_each : ∀ expressions : List Expression, ∀ tree ∈ astEach expressions, Accepted tree
  | [] => fun _ htree => nomatch htree
  | expression :: rest => List.forall_mem_cons.mpr ⟨expression.accepted, accepted_each rest⟩

theorem accepted_body : ∀ body : List Statement, ∀ tree ∈ astBody body, Accepted tree
  | [] => fun _ htree => nomatch htree
  | statement :: rest => List.forall_mem_append.mpr ⟨statement.accepted, accepted_body rest⟩

end

theorem Program.accepted (file : String) (program : Program) : Accepted (program.ast file) :=
  accepted_list rfl (accepted_body program.body)

end AstPromotion.Language
