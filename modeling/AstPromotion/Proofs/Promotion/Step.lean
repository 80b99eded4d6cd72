import AstPromotion.Phase
import AstPromotion.Proofs.Matching

/-! # What promotion can do

The changes that the promotion rules can plan at a subject, with everything the
rule found among its children. There is one case for each shape of each rule, so
that later proofs split on these cases and never open a rule.
-/

namespace AstPromotion.Promotion

variable {α : Type} {look : α → Form α}

/-- The kind of a provisional grouping. -/
abbrev grouping (grouping : Provisional) : Kind :=
  .group (.provisional grouping)

abbrev signKind (sign : Punctuation) : Kind :=
  .leaf (.mark (.punctuation sign))

abbrev operatorKind (sign : Operator) : Kind :=
  .leaf (.mark (.operator sign))

abbrev identifierKind : Kind :=
  .leaf (.literal .identifier)

/-- Nodes that spell a block in braces. -/
structure Braced (look : α → Form α) (opening body closing : α) : Prop where
  opening : (look opening).kind = signKind .leftCurly
  body : (look body).kind = .group .block
  closing : (look closing).kind = signKind .rightCurly

/-- Nodes that spell a keyword, a test in parentheses and a block in braces. -/
structure Guarded (look : α → Form α) (word : String)
    (keyword opening test closing left body right : α) : Prop where
  keyword : (look keyword).isKeyword word = true
  opening : (look opening).kind = signKind .leftParen
  test : (look test).kind.isOperand = true
  closing : (look closing).kind = signKind .rightParen
  braced : Braced look left body right

/-- Nodes that spell a parameter list in parentheses and a body in braces. -/
structure Parameterized (look : α → Form α) (opening parameters closing left body right : α) :
    Prop where
  opening : (look opening).kind = signKind .leftParen
  parameters : (look parameters).kind = .group .argumentList
  closing : (look closing).kind = signKind .rightParen
  braced : Braced look left body right

/-- A change that promotion can plan at a subject. -/
inductive Step (look : α → Form α) (subject : α) : Edit α → Prop
  | unary {operator operand : α} (hsubject : isProvisional (look subject).kind = true)
      (hchildren : (look subject).children = [operator, operand])
      (hoperator : (look operator).kind ∈
        [operatorKind .minus, operatorKind .plus, operatorKind .negation])
      (hoperand : (look operand).kind.isOperand = true) :
      Step look subject (.build (.unary operator operand) none)
  | binary {left operator right : α} (hsubject : isProvisional (look subject).kind = true)
      (hchildren : (look subject).children = [left, operator, right])
      (hleft : (look left).kind.isOperand = true)
      (hoperator : (look operator).kind.hasRole .arithmeticOperator = true)
      (hright : (look right).kind.isOperand = true) :
      Step look subject (.build (.binary operator left right) none)
  | comparison {left operator right : α} (hsubject : isProvisional (look subject).kind = true)
      (hchildren : (look subject).children = [left, operator, right])
      (hleft : (look left).kind.isOperand = true)
      (hoperator : (look operator).kind.hasRole .comparisonOperator = true)
      (hright : (look right).kind.isOperand = true) :
      Step look subject (.build (.comparison operator left right) none)
  | assignment {target mark value : α} (hsubject : isProvisional (look subject).kind = true)
      (hchildren : (look subject).children = [target, mark, value])
      (htarget : (look target).kind ∈ [identifierKind, .construct .memberExpression])
      (hmark : (look mark).kind = operatorKind .assignment)
      (hvalue : (look value).kind.isOperand = true) :
      Step look subject (.build (.variableAssignment target value) none)
  | indexWrite {target mark value callee arguments : α}
      (hsubject : isProvisional (look subject).kind = true)
      (hchildren : (look subject).children = [target, mark, value])
      (htarget : look target = .call callee arguments)
      (hmark : (look mark).kind = operatorKind .assignment)
      (hvalue : (look value).kind.isOperand = true) :
      Step look subject (.build (.arrayIndexWrite callee arguments value) none)
  | declaration {word identifier : α} (hsubject : isProvisional (look subject).kind = true)
      (hchildren : (look subject).children = [word, identifier])
      (hword : (look word).isKeyword "let" = true)
      (hidentifier : (look identifier).kind = identifierKind) :
      Step look subject (.build (.variableDeclaration identifier) none)
  | initialisation {word identifier mark value : α}
      (hsubject : isProvisional (look subject).kind = true)
      (hchildren : (look subject).children = [word, identifier, mark, value])
      (hword : (look word).isKeyword "let" = true)
      (hidentifier : (look identifier).kind = identifierKind)
      (hmark : (look mark).kind = operatorKind .assignment)
      (hvalue : (look value).kind.isOperand = true) :
      Step look subject (.build (.variableInitialisation identifier value) none)
  | call {callee opening arguments closing : α}
      (hsubject : isProvisional (look subject).kind = true)
      (hchildren : (look subject).children = [callee, opening, arguments, closing])
      (hopening : (look opening).kind = signKind .leftParen)
      (harguments : (look arguments).kind = .group .expressionList)
      (hclosing : (look closing).kind = signKind .rightParen) :
      Step look subject (.build (.call callee arguments) none)
  | member {object dot property : α} (hsubject : isProvisional (look subject).kind = true)
      (hchildren : (look subject).children = [object, dot, property])
      (hobject : (look object).kind.isOperand = true)
      (hdot : (look dot).kind = signKind .dot)
      (hproperty : (look property).kind = identifierKind) :
      Step look subject (.build (.member object property) none)
  | classLiteral {word name opening body closing : α}
      (hsubject : isProvisional (look subject).kind = true)
      (hchildren : (look subject).children = [word, name, opening, body, closing])
      (hword : (look word).isKeyword "class" = true)
      (hname : (look name).kind = identifierKind)
      (hbraced : Braced look opening body closing) :
      Step look subject (planClass look name body)
  | namedFunction {word name opening parameters closing left body right : α}
      (hsubject : isProvisional (look subject).kind = true)
      (hchildren : (look subject).children =
        [word, name, opening, parameters, closing, left, body, right])
      (hword : (look word).isKeyword "func" = true)
      (hname : (look name).kind = identifierKind)
      (hparameterized : Parameterized look opening parameters closing left body right) :
      Step look subject (.build (.functionLiteral (some name) parameters body) none)
  | unnamedFunction {word opening parameters closing left body right : α}
      (hsubject : isProvisional (look subject).kind = true)
      (hchildren : (look subject).children =
        [word, opening, parameters, closing, left, body, right])
      (hword : (look word).isKeyword "func" = true)
      (hparameterized : Parameterized look opening parameters closing left body right) :
      Step look subject (.build (.functionLiteral none parameters body) none)
  | unwrapIf {child : α} (hsubject : (look subject).kind = grouping .statement)
      (hchildren : (look subject).children = [child])
      (hchild : (look child).kind ∈ [grouping .ifStatement, .construct .ifStatement]) :
      Step look subject (.lift child)
  | ifStatement {word opening test closing left body right : α}
      (hsubject : (look subject).kind = grouping .ifStatement)
      (hchildren : (look subject).children = [word, opening, test, closing, left, body, right])
      (hguarded : Guarded look "if" word opening test closing left body right) :
      Step look subject (.build (.ifStatement test body none) none)
  | ifElse {word opening test closing left body right join left' body' right' : α}
      (hsubject : (look subject).kind = grouping .ifStatement)
      (hchildren : (look subject).children =
        [word, opening, test, closing, left, body, right, join, left', body', right'])
      (hguarded : Guarded look "if" word opening test closing left body right)
      (hjoin : (look join).isKeyword "else" = true)
      (hbraced : Braced look left' body' right') :
      Step look subject (.build (.ifStatement test body (some body')) none)
  | elseIf {word opening test closing left body right join alternate : α}
      (hsubject : (look subject).kind = grouping .ifStatement)
      (hchildren : (look subject).children =
        [word, opening, test, closing, left, body, right, join, alternate])
      (hguarded : Guarded look "if" word opening test closing left body right)
      (hjoin : (look join).isKeyword "else" = true)
      (halternate : (look alternate).kind = .construct .ifStatement) :
      Step look subject (.build (.ifStatement test body (some alternate)) none)
  | whileStatement {word opening test closing left body right : α}
      (hsubject : (look subject).kind = grouping .statement)
      (hchildren : (look subject).children = [word, opening, test, closing, left, body, right])
      (hguarded : Guarded look "while" word opening test closing left body right) :
      Step look subject (.build (.whileStatement test body) none)
  | functionDefinition {child : α} (hsubject : (look subject).kind = grouping .statement)
      (hchildren : (look subject).children = [child])
      (hchild : (look child).kind = .construct .functionLiteral) :
      Step look subject (.build (.functionDefinition child) none)
  | classDefinition {child : α} (hsubject : (look subject).kind = grouping .statement)
      (hchildren : (look subject).children = [child])
      (hchild : (look child).kind = .construct .classLiteral) :
      Step look subject (.build (.classDefinition child) none)
  | unwrapSettled {child : α}
      (hsubject : (look subject).kind ∈ [grouping .statement, grouping .temporary])
      (hchildren : (look subject).children = [child])
      (hchild : isSettled (look child).kind = true) :
      Step look subject (.lift child)
  | dropEmpty (hsubject : (look subject).kind = grouping .statement)
      (hchildren : (look subject).children = []) :
      Step look subject .remove

theorem descend_singleton (subject : α) (position : Nat) :
    descend look subject [position] = (look subject).children[position]? := by
  rw [descend]
  cases (look subject).children[position]? <;> rfl

theorem exists_of_kind_call {form : Form α} (hkind : form.kind = .construct .callExpression) :
    ∃ callee arguments, form = .call callee arguments := by
  cases form with
  | call callee arguments => exact ⟨callee, arguments, rfl⟩
  | _ => simp [Form.kind] at hkind

theorem mem_of_isGrouping {groupings : List Provisional} {kind : Kind}
    (hkind : isGrouping groupings kind = true) : kind ∈ groupings.map grouping := by
  simpa [isGrouping] using hkind

theorem exists_of_braced {tests : List Test} {nodes : List α}
    (haccepted : Test.acceptEach look (braced ++ tests) nodes = true) :
    ∃ opening body closing rest, nodes = opening :: body :: closing :: rest ∧
      Braced look opening body closing ∧ Test.acceptEach look tests rest = true := by
  simp only [braced, List.cons_append, List.nil_append, Test.acceptEach_cons, Test.accepts_sign,
    Test.accepts_exactly, List.mem_singleton] at haccepted
  obtain ⟨opening, _, rfl, hopening, body, _, rfl, hbody, closing, rest, rfl, hclosing, hrest⟩ :=
    haccepted
  exact ⟨opening, body, closing, rest, rfl, ⟨hopening, hbody, hclosing⟩, hrest⟩

theorem exists_of_guarded {word : String} {tests : List Test} {nodes : List α}
    (haccepted : Test.acceptEach look (guarded word ++ tests) nodes = true) :
    ∃ keyword opening test closing left body right rest,
      nodes = keyword :: opening :: test :: closing :: left :: body :: right :: rest ∧
        Guarded look word keyword opening test closing left body right ∧
        Test.acceptEach look tests rest = true := by
  rw [guarded, List.append_assoc] at haccepted
  simp only [List.cons_append, List.nil_append, Test.acceptEach_cons, Test.accepts_sign,
    Test.accepts_keyword, Test.accepts_operand] at haccepted
  obtain ⟨keyword, _, rfl, hkeyword, opening, _, rfl, hopening, test, _, rfl, htest, closing, _,
    rfl, hclosing, hblock⟩ := haccepted
  obtain ⟨left, body, right, rest, rfl, hbraced, hrest⟩ := exists_of_braced hblock
  exact ⟨keyword, opening, test, closing, left, body, right, rest, rfl,
    ⟨hkeyword, hopening, htest, hclosing, hbraced⟩, hrest⟩

theorem exists_of_function {nodes : List α}
    (haccepted : Test.acceptEach look function nodes = true) :
    ∃ opening parameters closing left body right,
      nodes = [opening, parameters, closing, left, body, right] ∧
        Parameterized look opening parameters closing left body right := by
  rw [function, ← List.append_nil braced] at haccepted
  simp only [List.cons_append, List.nil_append, Test.acceptEach_cons, Test.accepts_sign,
    Test.accepts_exactly, List.mem_singleton] at haccepted
  obtain ⟨opening, _, rfl, hopening, parameters, _, rfl, hparameters, closing, _, rfl, hclosing,
    hblock⟩ := haccepted
  obtain ⟨left, body, right, rest, rfl, hbraced, hrest⟩ := exists_of_braced hblock
  obtain rfl := Test.acceptEach_nil.mp hrest
  exact ⟨opening, parameters, closing, left, body, right, rfl,
    ⟨hopening, hparameters, hclosing, hbraced⟩⟩

/-- The operands and the operator of an infix rule. -/
theorem operands_of_acceptEach {role : Role} {nodes : List α}
    (haccepted : Test.acceptEach look [Test.operand, .role role, Test.operand] nodes = true) :
    ∃ left operator right, nodes = [left, operator, right] ∧
      (look left).kind.isOperand = true ∧ (look operator).kind.hasRole role = true ∧
      (look right).kind.isOperand = true := by
  simp only [Test.acceptEach_cons, Test.acceptEach_nil, Test.accepts_operand,
    Test.accepts_role] at haccepted
  obtain ⟨left, _, rfl, hleft, operator, _, rfl, hoperator, right, _, rfl, hright, rfl⟩ :=
    haccepted
  exact ⟨left, operator, right, rfl, hleft, hoperator, hright⟩

/-- The two sides of an assignment. -/
theorem sides_of_acceptEach {targets : List Kind} {nodes : List α}
    (haccepted : Test.acceptEach look
      [.exactly targets, Test.operator .assignment, Test.operand] nodes = true) :
    ∃ target mark value, nodes = [target, mark, value] ∧ (look target).kind ∈ targets ∧
      (look mark).kind = operatorKind .assignment ∧ (look value).kind.isOperand = true := by
  simp only [Test.acceptEach_cons, Test.acceptEach_nil, Test.accepts_exactly,
    Test.accepts_operator, Test.accepts_operand] at haccepted
  obtain ⟨target, _, rfl, htarget, mark, _, rfl, hmark, value, _, rfl, hvalue, rfl⟩ := haccepted
  exact ⟨target, mark, value, rfl, htarget, hmark, hvalue⟩

theorem step_of_unaryExpression {subject : α} {edit : Edit α}
    (hplan : unaryExpression.plan? look subject = some edit) : Step look subject edit := by
  obtain ⟨hsubject, haccepted, hplan⟩ := Rule.of_plan? rfl hplan
  simp only [Test.acceptEach_cons, Test.acceptEach_nil, Test.accepts_exactly,
    Test.accepts_operand] at haccepted
  obtain ⟨operator, _, hchildren, hoperator, operand, _, rfl, hoperand, rfl⟩ := haccepted
  simp [Outcome.plan?, Form.traverse?, descend_singleton, hchildren] at hplan
  subst hplan
  exact .unary hsubject hchildren hoperator hoperand

theorem step_of_binaryExpression {subject : α} {edit : Edit α}
    (hplan : binaryExpression.plan? look subject = some edit) : Step look subject edit := by
  obtain ⟨hsubject, haccepted, hplan⟩ := Rule.of_plan? rfl hplan
  obtain ⟨left, operator, right, hchildren, hleft, hoperator, hright⟩ :=
    operands_of_acceptEach haccepted
  simp [Outcome.plan?, Form.traverse?, descend_singleton, hchildren] at hplan
  subst hplan
  exact .binary hsubject hchildren hleft hoperator hright

theorem step_of_comparisonExpression {subject : α} {edit : Edit α}
    (hplan : comparisonExpression.plan? look subject = some edit) : Step look subject edit := by
  obtain ⟨hsubject, haccepted, hplan⟩ := Rule.of_plan? rfl hplan
  obtain ⟨left, operator, right, hchildren, hleft, hoperator, hright⟩ :=
    operands_of_acceptEach haccepted
  simp [Outcome.plan?, Form.traverse?, descend_singleton, hchildren] at hplan
  subst hplan
  exact .comparison hsubject hchildren hleft hoperator hright

theorem step_of_variableAssignment {subject : α} {edit : Edit α}
    (hplan : variableAssignment.plan? look subject = some edit) : Step look subject edit := by
  obtain ⟨hsubject, haccepted, hplan⟩ := Rule.of_plan? rfl hplan
  obtain ⟨target, mark, value, hchildren, htarget, hmark, hvalue⟩ := sides_of_acceptEach haccepted
  simp [Outcome.plan?, Form.traverse?, descend_singleton, hchildren] at hplan
  subst hplan
  exact .assignment hsubject hchildren htarget hmark hvalue

theorem step_of_arrayIndexWrite {subject : α} {edit : Edit α}
    (hplan : arrayIndexWrite.plan? look subject = some edit) : Step look subject edit := by
  obtain ⟨hsubject, haccepted, hplan⟩ := Rule.of_plan? rfl hplan
  obtain ⟨target, mark, value, hchildren, htarget, hmark, hvalue⟩ := sides_of_acceptEach haccepted
  obtain ⟨callee, arguments, hcall⟩ := exists_of_kind_call (List.mem_singleton.mp htarget)
  have hfields : (look target).children = [callee, arguments] := by rw [hcall]; rfl
  simp [Outcome.plan?, Form.traverse?, descend, hchildren, hfields] at hplan
  subst hplan
  exact .indexWrite hsubject hchildren hcall hmark hvalue

theorem step_of_variableDeclaration {subject : α} {edit : Edit α}
    (hplan : variableDeclaration.plan? look subject = some edit) : Step look subject edit := by
  obtain ⟨hsubject, haccepted, hplan⟩ := Rule.of_plan? rfl hplan
  simp only [Test.acceptEach_cons, Test.acceptEach_nil, Test.accepts_keyword,
    Test.accepts_identifier] at haccepted
  obtain ⟨word, _, hchildren, hword, identifier, _, rfl, hidentifier, rfl⟩ := haccepted
  simp [Outcome.plan?, Form.traverse?, descend_singleton, hchildren] at hplan
  subst hplan
  exact .declaration hsubject hchildren hword hidentifier

theorem step_of_variableInitialisation {subject : α} {edit : Edit α}
    (hplan : variableInitialisation.plan? look subject = some edit) : Step look subject edit := by
  obtain ⟨hsubject, haccepted, hplan⟩ := Rule.of_plan? rfl hplan
  simp only [Test.acceptEach_cons, Test.acceptEach_nil, Test.accepts_keyword,
    Test.accepts_identifier, Test.accepts_operator, Test.accepts_operand] at haccepted
  obtain ⟨word, _, hchildren, hword, identifier, _, rfl, hidentifier, mark, _, rfl, hmark, value,
    _, rfl, hvalue, rfl⟩ := haccepted
  simp [Outcome.plan?, Form.traverse?, descend_singleton, hchildren] at hplan
  subst hplan
  exact .initialisation hsubject hchildren hword hidentifier hmark hvalue

theorem step_of_callExpression {subject : α} {edit : Edit α}
    (hplan : callExpression.plan? look subject = some edit) : Step look subject edit := by
  obtain ⟨hsubject, haccepted, hplan⟩ := Rule.of_plan? rfl hplan
  simp only [Test.acceptEach_cons, Test.acceptEach_nil, Test.accepts_sign, Test.accepts_exactly,
    List.mem_singleton] at haccepted
  obtain ⟨callee, _, hchildren, -, opening, _, rfl, hopening, arguments, _, rfl, harguments,
    closing, _, rfl, hclosing, rfl⟩ := haccepted
  simp [Outcome.plan?, Form.traverse?, descend_singleton, hchildren] at hplan
  subst hplan
  exact .call hsubject hchildren hopening harguments hclosing

theorem step_of_memberExpression {subject : α} {edit : Edit α}
    (hplan : memberExpression.plan? look subject = some edit) : Step look subject edit := by
  obtain ⟨hsubject, haccepted, hplan⟩ := Rule.of_plan? rfl hplan
  simp only [Test.acceptEach_cons, Test.acceptEach_nil, Test.accepts_operand, Test.accepts_sign,
    Test.accepts_identifier] at haccepted
  obtain ⟨object, _, hchildren, hobject, dot, _, rfl, hdot, property, _, rfl, hproperty, rfl⟩ :=
    haccepted
  simp [Outcome.plan?, Form.traverse?, descend_singleton, hchildren] at hplan
  subst hplan
  exact .member hsubject hchildren hobject hdot hproperty

theorem step_of_classLiteral {subject : α} {edit : Edit α}
    (hplan : classLiteral.plan? look subject = some edit) : Step look subject edit := by
  obtain ⟨hsubject, haccepted, hplan⟩ := Rule.of_plan? rfl hplan
  rw [← List.append_nil braced] at haccepted
  simp only [List.cons_append, List.nil_append, Test.acceptEach_cons, Test.accepts_keyword,
    Test.accepts_identifier] at haccepted
  obtain ⟨word, _, hchildren, hword, name, _, rfl, hname, hblock⟩ := haccepted
  obtain ⟨opening, body, closing, rest, rfl, hbraced, hrest⟩ := exists_of_braced hblock
  obtain rfl := Test.acceptEach_nil.mp hrest
  simp [Outcome.plan?, hchildren] at hplan
  subst hplan
  exact .classLiteral hsubject hchildren hword hname hbraced

theorem step_of_functionLiteral {subject : α} {edit : Edit α}
    (hplan : functionLiteral.plan? look subject = some edit) : Step look subject edit := by
  obtain ⟨hsubject, shape, hshape, haccepted, hplan⟩ := Rule.exists_of_plan? hplan
  simp only [functionLiteral, List.mem_cons, List.not_mem_nil, or_false] at hshape
  rcases hshape with rfl | rfl
  · simp only [List.cons_append, List.nil_append, Test.acceptEach_cons, Test.accepts_keyword,
      Test.accepts_identifier] at haccepted
    obtain ⟨word, _, hchildren, hword, name, _, rfl, hname, hfunction⟩ := haccepted
    obtain ⟨opening, parameters, closing, left, body, right, rfl, hparameterized⟩ :=
      exists_of_function hfunction
    simp [Outcome.plan?, Form.traverse?, descend_singleton, hchildren] at hplan
    subst hplan
    exact .namedFunction hsubject hchildren hword hname hparameterized
  · simp only [List.cons_append, List.nil_append, Test.acceptEach_cons,
      Test.accepts_keyword] at haccepted
    obtain ⟨word, _, hchildren, hword, hfunction⟩ := haccepted
    obtain ⟨opening, parameters, closing, left, body, right, rfl, hparameterized⟩ :=
      exists_of_function hfunction
    simp [Outcome.plan?, Form.traverse?, descend_singleton, hchildren] at hplan
    subst hplan
    exact .unnamedFunction hsubject hchildren hword hparameterized

theorem step_of_unwrapIfStatement {subject : α} {edit : Edit α}
    (hplan : unwrapIfStatement.plan? look subject = some edit) : Step look subject edit := by
  obtain ⟨hsubject, haccepted, hplan⟩ := Rule.of_plan? rfl hplan
  obtain ⟨child, hchildren, hchild, rfl⟩ := lift_of_plan? haccepted hplan
  exact .unwrapIf (List.mem_singleton.mp (mem_of_isGrouping hsubject)) hchildren
    (Test.accepts_exactly.mp hchild)

theorem step_of_ifStatement {subject : α} {edit : Edit α}
    (hplan : ifStatement.plan? look subject = some edit) : Step look subject edit := by
  obtain ⟨hsubject, haccepted, hplan⟩ := Rule.of_plan? rfl hplan
  rw [← List.append_nil (guarded "if")] at haccepted
  obtain ⟨word, opening, test, closing, left, body, right, rest, hchildren, hguarded, hrest⟩ :=
    exists_of_guarded haccepted
  obtain rfl := Test.acceptEach_nil.mp hrest
  simp [Outcome.plan?, Form.traverse?, descend_singleton, hchildren] at hplan
  subst hplan
  exact .ifStatement (List.mem_singleton.mp (mem_of_isGrouping hsubject)) hchildren hguarded

theorem step_of_ifElseStatement {subject : α} {edit : Edit α}
    (hplan : ifElseStatement.plan? look subject = some edit) : Step look subject edit := by
  obtain ⟨hsubject, haccepted, hplan⟩ := Rule.of_plan? rfl hplan
  rw [List.append_assoc] at haccepted
  obtain ⟨word, opening, test, closing, left, body, right, rest, hchildren, hguarded, hrest⟩ :=
    exists_of_guarded haccepted
  obtain ⟨join, others, rfl, hjoin, hblock⟩ := Test.acceptEach_cons.mp hrest
  change Test.acceptEach look (braced ++ []) others = true at hblock
  obtain ⟨left', body', right', rest', rfl, hbraced, hrest'⟩ := exists_of_braced hblock
  obtain rfl := Test.acceptEach_nil.mp hrest'
  simp [Outcome.plan?, Form.traverse?, descend_singleton, hchildren] at hplan
  subst hplan
  exact .ifElse (List.mem_singleton.mp (mem_of_isGrouping hsubject)) hchildren hguarded hjoin
    hbraced

theorem step_of_elseIfChain {subject : α} {edit : Edit α}
    (hplan : elseIfChain.plan? look subject = some edit) : Step look subject edit := by
  obtain ⟨hsubject, haccepted, hplan⟩ := Rule.of_plan? rfl hplan
  obtain ⟨word, opening, test, closing, left, body, right, rest, hchildren, hguarded, hrest⟩ :=
    exists_of_guarded haccepted
  simp only [Test.acceptEach_cons, Test.acceptEach_nil, Test.accepts_exactly,
    List.mem_singleton] at hrest
  obtain ⟨join, _, rfl, hjoin, alternate, _, rfl, halternate, rfl⟩ := hrest
  simp [Outcome.plan?, Form.traverse?, descend_singleton, hchildren] at hplan
  subst hplan
  exact .elseIf (List.mem_singleton.mp (mem_of_isGrouping hsubject)) hchildren hguarded hjoin
    halternate

theorem step_of_whileStatement {subject : α} {edit : Edit α}
    (hplan : whileStatement.plan? look subject = some edit) : Step look subject edit := by
  obtain ⟨hsubject, haccepted, hplan⟩ := Rule.of_plan? rfl hplan
  rw [← List.append_nil (guarded "while")] at haccepted
  obtain ⟨word, opening, test, closing, left, body, right, rest, hchildren, hguarded, hrest⟩ :=
    exists_of_guarded haccepted
  obtain rfl := Test.acceptEach_nil.mp hrest
  simp [Outcome.plan?, Form.traverse?, descend_singleton, hchildren] at hplan
  subst hplan
  exact .whileStatement (List.mem_singleton.mp (mem_of_isGrouping hsubject)) hchildren hguarded

theorem step_of_functionDefinition {subject : α} {edit : Edit α}
    (hplan : functionDefinition.plan? look subject = some edit) : Step look subject edit := by
  obtain ⟨hsubject, haccepted, hplan⟩ := Rule.of_plan? rfl hplan
  simp only [Test.acceptEach_cons, Test.acceptEach_nil, Test.accepts_exactly,
    List.mem_singleton] at haccepted
  obtain ⟨child, _, hchildren, hchild, rfl⟩ := haccepted
  simp [Outcome.plan?, Form.traverse?, descend_singleton, hchildren] at hplan
  subst hplan
  exact .functionDefinition (List.mem_singleton.mp (mem_of_isGrouping hsubject)) hchildren hchild

theorem step_of_classDefinition {subject : α} {edit : Edit α}
    (hplan : classDefinition.plan? look subject = some edit) : Step look subject edit := by
  obtain ⟨hsubject, haccepted, hplan⟩ := Rule.of_plan? rfl hplan
  simp only [Test.acceptEach_cons, Test.acceptEach_nil, Test.accepts_exactly,
    List.mem_singleton] at haccepted
  obtain ⟨child, _, hchildren, hchild, rfl⟩ := haccepted
  simp [Outcome.plan?, Form.traverse?, descend_singleton, hchildren] at hplan
  subst hplan
  exact .classDefinition (List.mem_singleton.mp (mem_of_isGrouping hsubject)) hchildren hchild

theorem step_of_unwrapSettled {subject : α} {edit : Edit α}
    (hplan : unwrapSettled.plan? look subject = some edit) : Step look subject edit := by
  obtain ⟨hsubject, haccepted, hplan⟩ := Rule.of_plan? rfl hplan
  obtain ⟨child, hchildren, hchild, rfl⟩ := lift_of_plan? haccepted hplan
  exact .unwrapSettled (mem_of_isGrouping hsubject) hchildren hchild

theorem step_of_dropEmptyStatement {subject : α} {edit : Edit α}
    (hplan : dropEmptyStatement.plan? look subject = some edit) : Step look subject edit := by
  obtain ⟨hsubject, haccepted, hplan⟩ := Rule.of_plan? rfl hplan
  simp only [Outcome.plan?, Option.some.injEq] at hplan
  subst hplan
  exact .dropEmpty (List.mem_singleton.mp (mem_of_isGrouping hsubject))
    (Test.acceptEach_nil.mp haccepted)

/-- Every change that the catalogue plans is a step. -/
theorem step_of_plan? {subject : α} {name : String} {edit : Edit α}
    (hplan : catalogue.plan? look subject = some (name, edit)) : Step look subject edit := by
  obtain ⟨rule, hrule, -, hplan⟩ := Catalogue.exists_of_plan? hplan
  simp only [catalogue, List.mem_cons, List.not_mem_nil, or_false] at hrule
  rcases hrule with rfl | rfl | rfl | rfl | rfl | rfl | rfl | rfl | rfl | rfl | rfl | rfl | rfl |
    rfl | rfl | rfl | rfl | rfl | rfl | rfl
  · exact step_of_unaryExpression hplan
  · exact step_of_binaryExpression hplan
  · exact step_of_comparisonExpression hplan
  · exact step_of_variableAssignment hplan
  · exact step_of_arrayIndexWrite hplan
  · exact step_of_variableDeclaration hplan
  · exact step_of_variableInitialisation hplan
  · exact step_of_callExpression hplan
  · exact step_of_memberExpression hplan
  · exact step_of_classLiteral hplan
  · exact step_of_functionLiteral hplan
  · exact step_of_unwrapIfStatement hplan
  · exact step_of_ifStatement hplan
  · exact step_of_ifElseStatement hplan
  · exact step_of_elseIfChain hplan
  · exact step_of_whileStatement hplan
  · exact step_of_functionDefinition hplan
  · exact step_of_classDefinition hplan
  · exact step_of_unwrapSettled hplan
  · exact step_of_dropEmptyStatement hplan

end AstPromotion.Promotion
