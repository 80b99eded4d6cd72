import AstPromotion.Proofs.Promotion.Invariant

/-! # What stands in the fields of constructs

Each rule has looked at the kinds of the nodes it puts into fields. Provisional
groupings pass for values there; only validation turns them away.
-/

namespace AstPromotion

/-- Kinds that are values for good: constructs that yield one, and literals. -/
def Kind.isValue : Kind → Bool
  | .construct built => built.isExpression
  | .leaf (.literal _) => true
  | _ => false

/-- Every named field of a construct holds what it should, for the given notion of a value. Leaves
and groups have no named fields. -/
def Form.Typed {α : Type} (values : Kind → Bool) (look : α → Form α) : Form α → Prop
  | .leaf _ _ => True
  | .group _ _ => True
  | .unary operator operand =>
    (look operator).kind ∈ [Operator.minus, .plus, .negation].map Promotion.operatorKind ∧
      values (look operand).kind = true
  | .binary operator left right =>
    (look operator).kind.hasRole .arithmeticOperator = true ∧
      values (look left).kind = true ∧ values (look right).kind = true
  | .comparison operator left right =>
    (look operator).kind.hasRole .comparisonOperator = true ∧
      values (look left).kind = true ∧ values (look right).kind = true
  | .variableDeclaration identifier => (look identifier).kind = .leaf (.literal .identifier)
  | .variableInitialisation identifier expression =>
    (look identifier).kind = .leaf (.literal .identifier) ∧ values (look expression).kind = true
  | .variableAssignment target value =>
    (look target).kind ∈ [.leaf (.literal .identifier), .construct .memberExpression] ∧
      values (look value).kind = true
  | .arrayIndexWrite _ index value =>
    (look index).kind = .group .expressionList ∧ values (look value).kind = true
  | .call _ arguments => (look arguments).kind = .group .expressionList
  | .member object property =>
    values (look object).kind = true ∧ (look property).kind = .leaf (.literal .identifier)
  | .functionLiteral name parameters body =>
    (∀ shown ∈ name, (look shown).kind = .leaf (.literal .identifier)) ∧
      (look parameters).kind = .group .argumentList ∧ (look body).kind = .group .block
  | .functionDefinition function => (look function).kind = .construct .functionLiteral
  | .classLiteral name constructor body =>
    (look name).kind = .leaf (.literal .identifier) ∧
      (∀ function ∈ constructor, isFunctionNamed look "constructor" function = true) ∧
        (look body).kind = .group .block
  | .classDefinition literal => (look literal).kind = .construct .classLiteral
  | .ifStatement test consequent alternate =>
    values (look test).kind = true ∧ (look consequent).kind = .group .block ∧
      ∀ other ∈ alternate, (look other).kind ∈ [.group .block, .construct .ifStatement]
  | .whileStatement test consequent =>
    values (look test).kind = true ∧ (look consequent).kind = .group .block

namespace Form

variable {α β : Type} {look : α → Form α}

/-- A stricter notion of a value will do if it agrees on the children. -/
theorem Typed.mono {values strict : Kind → Bool} {form : Form α} (htyped : form.Typed values look)
    (hstrict : ∀ child ∈ form.children, values (look child).kind = true →
      strict (look child).kind = true) : form.Typed strict look := by
  cases form with
  | leaf | group | variableDeclaration | call | functionLiteral | functionDefinition | classLiteral
  | classDefinition => exact htyped
  | unary | variableInitialisation | variableAssignment =>
      exact ⟨htyped.1, hstrict _ (by simp [children]) htyped.2⟩
  | binary | comparison =>
      exact ⟨htyped.1, hstrict _ (by simp [children]) htyped.2.1,
        hstrict _ (by simp [children]) htyped.2.2⟩
  | arrayIndexWrite => exact ⟨htyped.1, hstrict _ (by simp [children]) htyped.2⟩
  | member => exact ⟨hstrict _ (by simp [children]) htyped.1, htyped.2⟩
  | ifStatement => exact ⟨hstrict _ (by simp [children]) htyped.1, htyped.2⟩
  | whileStatement => exact ⟨hstrict _ (by simp [children]) htyped.1, htyped.2⟩

end Form

/-- Seen through another lookup, a node is typed just as well. -/
theorem Views.typed_iff {α β : Type} {look : α → Form α} {look' : β → Form β} {f : α → β}
    {within : α → Prop} (views : Views look look' f within) {node : α} (hnode : within node)
    (values : Kind → Bool) :
    (look' (f node)).Typed values look' ↔ (look node).Typed values look := by
  have hclosed := views.closed node hnode
  have hkind : ∀ child ∈ (look node).children, (look' (f child)).kind = (look child).kind :=
    fun child hchild => views.kind_eq (hclosed child hchild)
  have hnamed : ∀ child ∈ (look node).children, isFunctionNamed look' "constructor" (f child) =
      isFunctionNamed look "constructor" child :=
    fun child hchild => views.isFunctionNamed_eq (hclosed child hchild) "constructor"
  rw [views.look_eq node hnode]
  cases hform : look node with
  | functionLiteral name parameters body =>
      rw [hform] at hkind
      cases name <;> simp_all [Form.Typed, Form.map, Form.children]
  | classLiteral name constructor body =>
      rw [hform] at hkind hnamed
      cases constructor <;> simp_all [Form.Typed, Form.map, Form.children]
  | ifStatement test consequent alternate =>
      rw [hform] at hkind
      cases alternate <;> simp_all [Form.Typed, Form.map, Form.children]
  | _ =>
      rw [hform] at hkind
      simp_all [Form.Typed, Form.map, Form.children]

namespace Promotion

variable {ι : Type}

open Term (node relist)

theorem typed_planClass {look : α → Form α} {name body : α} {form : Form α} {relisted : Option (α × List α)}
    (hname : (look name).kind = identifierKind) (hbody : (look body).kind = .group .block)
    (hedit : Edit.build form relisted = planClass look name body) :
    form.Typed Kind.isOperand look := by
  rw [planClass] at hedit
  split at hedit
  next function others htaken =>
      cases hedit
      obtain ⟨before, statement, after, -, -, hfound, -⟩ := exists_of_takeConstructor? htaken
      refine ⟨hname, ?_, hbody⟩
      intro other hother
      obtain rfl := Option.some.inj hother
      exact (eq_or_eq_of_constructorOf? hfound).2
  next =>
      cases hedit
      exact ⟨hname, fun _ h => absurd h (Option.not_mem_none _), hbody⟩

/-- What a rule builds is typed if what it builds on is. -/
theorem typed_of_step {look : α → Form α} {subject : α} {form : Form α}
    {relisted : Option (α × List α)} (hstep : Step look subject (.build form relisted))
    (hchildren : ∀ child ∈ (look subject).children, (look child).Typed Kind.isOperand look) :
    form.Typed Kind.isOperand look := by
  generalize hedit : Edit.build form relisted = edit at hstep
  cases hstep with
  | unary _ _ hoperator hoperand =>
      cases hedit
      exact ⟨hoperator, hoperand⟩
  | binary _ _ hleft hoperator hright =>
      cases hedit
      exact ⟨hoperator, hleft, hright⟩
  | comparison _ _ hleft hoperator hright =>
      cases hedit
      exact ⟨hoperator, hleft, hright⟩
  | assignment _ _ htarget _ hvalue =>
      cases hedit
      exact ⟨htarget, hvalue⟩
  | @indexWrite target mark value callee arguments _ hsubject htarget _ hvalue =>
      cases hedit
      -- The index was the argument list of a call, and the call was typed.
      have hcall := hchildren target (by rw [hsubject]; exact List.mem_cons_self)
      rw [htarget] at hcall
      exact ⟨hcall, hvalue⟩
  | declaration _ _ _ hidentifier =>
      cases hedit
      exact hidentifier
  | initialisation _ _ _ hidentifier _ hvalue =>
      cases hedit
      exact ⟨hidentifier, hvalue⟩
  | call _ _ _ harguments _ =>
      cases hedit
      exact harguments
  | member _ _ hobject _ hproperty =>
      cases hedit
      exact ⟨hobject, hproperty⟩
  | classLiteral _ _ _ hname hbraced => exact typed_planClass hname hbraced.body hedit
  | namedFunction _ _ _ hname hparameterized =>
      cases hedit
      refine ⟨?_, hparameterized.parameters, hparameterized.braced.body⟩
      intro other hother
      obtain rfl := Option.some.inj hother
      exact hname
  | unnamedFunction _ _ _ hparameterized =>
      cases hedit
      exact ⟨fun _ h => absurd h (Option.not_mem_none _), hparameterized.parameters,
        hparameterized.braced.body⟩
  | ifStatement _ _ hguarded =>
      cases hedit
      exact ⟨hguarded.test, hguarded.braced.body, fun _ h => absurd h (Option.not_mem_none _)⟩
  | ifElse _ _ hguarded _ hbraced =>
      cases hedit
      refine ⟨hguarded.test, hguarded.braced.body, ?_⟩
      intro other hother
      obtain rfl := Option.some.inj hother
      rw [hbraced.body]
      exact List.mem_cons_self
  | elseIf _ _ hguarded _ halternate =>
      cases hedit
      refine ⟨hguarded.test, hguarded.braced.body, ?_⟩
      intro other hother
      obtain rfl := Option.some.inj hother
      rw [halternate]
      exact List.mem_cons_of_mem _ List.mem_cons_self
  | whileStatement _ _ hguarded =>
      cases hedit
      exact ⟨hguarded.test, hguarded.braced.body⟩
  | functionDefinition _ _ hchild =>
      cases hedit
      exact hchild
  | classDefinition _ _ hchild =>
      cases hedit
      exact hchild
  | unwrapIf | unwrapSettled | dropEmpty => cases hedit

/-- Giving a class body another list changes no kind that a field is asked for. -/
theorem typed_relist {term : Term ι} {form : Form (Term ι)}
    {relisted : Option (Term ι × List (Term ι))} {values : Kind → Bool}
    (hfields : Fields Term.form term form relisted) (htyped : form.Typed values Term.form) :
    (relist relisted form).Typed values Term.form := by
  cases hfields with
  | own | opened => exact htyped
  | extracted hchildren hbody htaken =>
      refine ⟨htyped.1, htyped.2.1, ?_⟩
      rw [form_withItems hbody]
      rfl

theorem inductive_typed (fresh : ι) :
    Inductive fresh fun term => term.form.Typed Kind.isOperand Term.form where
  group _ _ _ _ _ := trivial
  body _ _ _ _ _ := trivial
  build subject form relisted hstep hbelow := by
    refine typed_relist (fields_of_step hstep) (typed_of_step hstep ?_)
    exact fun child hchild => hbelow child hchild child child.mem_subterms_self

/-- The constructs that promotion leaves are typed, groupings passing for values. -/
theorem typed_promote {fresh : ι} {term : Term ι} (hshallow : term.Shallow)
    (hstays : (term.promote fresh).gone = false) :
    ∀ inner ∈ (term.promote fresh).term.subterms, inner.form.Typed Kind.isOperand Term.form := by
  refine (inductive_typed fresh).promote hshallow ?_ hstays
  intro inner _ kind value hform
  rw [hform]
  trivial

end Promotion

end AstPromotion
