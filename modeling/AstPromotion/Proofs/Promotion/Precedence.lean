import AstPromotion.Proofs.Promotion.Step

/-! # Which rule comes first

A rule can only match a subject with as many children as one of its shapes has
tests. That leaves few rules for any subject, and among them the kinds of the
children decide. Where a step can be taken it is the one that is planned, but a
statement that could be unwrapped may be a definition instead.
-/

namespace AstPromotion

variable {α : Type} {look : α → Form α} {subject : α} {edit : Edit α}

/-- Whether a rule has a shape with that many children. -/
def Rule.fits (count : Nat) (rule : Rule) : Bool :=
  rule.shapes.any (·.children.length == count)

namespace Rule

variable {rule : Rule} {shape : Shape}

theorem plan?_eq_none_of_fits (hfits : rule.fits (look subject).children.length = false) :
    rule.plan? look subject = none := by
  cases hplan : rule.plan? look subject with
  | none => rfl
  | some edit =>
      obtain ⟨-, shape, hshape, haccepted, -⟩ := exists_of_plan? hplan
      rw [fits, List.any_eq_false] at hfits
      exact absurd (beq_iff_eq.mpr (Test.length_of_acceptEach haccepted)) (hfits shape hshape)

theorem plan?_of_accepted {others : List Shape} (hshapes : rule.shapes = shape :: others)
    (hsubject : rule.subject (look subject).kind = true)
    (haccepted : Test.acceptEach look shape.children (look subject).children = true)
    (hplan : shape.outcome.plan? look subject = some edit) :
    rule.plan? look subject = some edit := by
  rw [plan?, if_pos hsubject, hshapes, List.findSome?_cons, Shape.plan?, if_pos haccepted, hplan]

theorem plan?_of_second {first : Shape} {others : List Shape}
    (hshapes : rule.shapes = first :: shape :: others)
    (hsubject : rule.subject (look subject).kind = true)
    (hrejected : ¬ Test.acceptEach look first.children (look subject).children = true)
    (haccepted : Test.acceptEach look shape.children (look subject).children = true)
    (hplan : shape.outcome.plan? look subject = some edit) :
    rule.plan? look subject = some edit := by
  rw [plan?, if_pos hsubject, hshapes, List.findSome?_cons, Shape.plan?, if_neg hrejected,
    List.findSome?_cons, Shape.plan?, if_pos haccepted, hplan]

theorem plan?_of_rejected (hshapes : rule.shapes = [shape])
    (hrejected : ¬ Test.acceptEach look shape.children (look subject).children = true) :
    rule.plan? look subject = none := by
  rw [plan?, hshapes, List.findSome?_cons, Shape.plan?, if_neg hrejected, List.findSome?_nil]
  split <;> rfl

theorem plan?_of_subject (hsubject : rule.subject (look subject).kind = false) :
    rule.plan? look subject = none := by
  rw [plan?, hsubject, if_neg Bool.false_ne_true]

end Rule

namespace Catalogue

variable {rules : Catalogue}

/-- Only the rules with a shape of as many children as the subject has matter. -/
theorem plan?_filter (rules : Catalogue) {count : Nat}
    (hcount : (look subject).children.length = count) :
    plan? (rules.filter (·.fits count)) look subject = rules.plan? look subject := by
  induction rules with
  | nil => rfl
  | cons rule rest ih =>
      rw [plan?] at ih
      cases hfits : rule.fits count with
      | false =>
          rw [List.filter_cons_of_neg (by simp [hfits]), plan?, ih, plan?, plan?,
            List.findSome?_cons, Rule.plan?_eq_none_of_fits (by rw [hcount, hfits])]
          rfl
      | true =>
          rw [List.filter_cons_of_pos (by simp [hfits]), plan?, List.findSome?_cons, ih]
          rfl

theorem exists_plan?_of_some (rule : Rule) (hplan : rule.plan? look subject = some edit) :
    ∃ name, plan? (rule :: rules) look subject = some (name, edit) := by
  refine ⟨rule.name, ?_⟩
  rw [plan?, List.findSome?_cons, hplan]
  rfl

theorem exists_plan?_of_none (rule : Rule) (hplan : rule.plan? look subject = none)
    (hrest : ∃ name, rules.plan? look subject = some (name, edit)) :
    ∃ name, plan? (rule :: rules) look subject = some (name, edit) := by
  obtain ⟨name, hrest⟩ := hrest
  refine ⟨name, ?_⟩
  rw [plan?, List.findSome?_cons, hplan]
  exact hrest

end Catalogue

namespace Promotion

open Catalogue (exists_plan?_of_some exists_plan?_of_none)
open Rule (plan?_of_accepted plan?_of_second plan?_of_rejected plan?_of_subject)

/-- It is enough to look at the rules for the number of children the subject has. -/
theorem exists_plan?_of_length (count : Nat) (hcount : (look subject).children.length = count)
    (hplan : ∃ name, Catalogue.plan? (catalogue.filter (·.fits count)) look subject =
      some (name, edit)) :
    ∃ name, catalogue.plan? look subject = some (name, edit) := by
  obtain ⟨name, hplan⟩ := hplan
  exact ⟨name, (Catalogue.plan?_filter catalogue hcount).symm.trans hplan⟩

/-- What is built is what the places of the template stand for. -/
theorem build_plan? {template : Form Place} {form : Form α}
    (hform : template.traverse? (descend look subject) = some form) :
    (Outcome.build template).plan? look subject = some (.build form none) := by
  rw [Outcome.plan?, hform]
  rfl

theorem lift_plan? {child : α} {position : Nat}
    (hchild : (look subject).children[position]? = some child) :
    (Outcome.lift position).plan? look subject = some (.lift child) := by
  rw [Outcome.plan?, hchild]
  rfl

theorem isGrouping_of_mem {kind : Kind} {groupings : List Provisional}
    (hkind : kind ∈ groupings.map grouping) : isGrouping groupings kind = true := by
  simpa [isGrouping] using hkind

/-- A keyword is a leaf of its own kind. -/
theorem kind_of_isKeyword {form : Form α} {word : String} (hword : form.isKeyword word = true) :
    form.kind = .leaf .keyword := by
  rw [Form.isKeyword, Bool.and_eq_true, beq_iff_eq] at hword
  exact hword.1

/-- No node is two keywords. -/
theorem not_isKeyword {form : Form α} {word other : String} (hword : form.isKeyword word = true)
    (hne : word ≠ other) : form.isKeyword other = false := by
  rw [Form.isKeyword, Bool.and_eq_true, beq_iff_eq, beq_iff_eq] at hword
  rw [Form.isKeyword, hword.2, Bool.and_eq_false_iff]
  exact Or.inr (beq_eq_false_iff_ne.mpr fun heq => hne (Option.some.inj heq))

theorem acceptEach_braced {opening body closing : α} (tests : List Test) (nodes : List α)
    (hbraced : Braced look opening body closing) :
    Test.acceptEach look (braced ++ tests) (opening :: body :: closing :: nodes) =
      Test.acceptEach look tests nodes := by
  rw [Bool.eq_iff_iff]
  simp [braced, hbraced.opening, hbraced.body, hbraced.closing]

theorem acceptEach_guarded {word : String} {keyword opening test closing left body right : α}
    (tests : List Test) (nodes : List α)
    (hguarded : Guarded look word keyword opening test closing left body right) :
    Test.acceptEach look (guarded word ++ tests)
        (keyword :: opening :: test :: closing :: left :: body :: right :: nodes) =
      Test.acceptEach look tests nodes := by
  have hbraced := acceptEach_braced tests nodes hguarded.braced
  rw [Bool.eq_iff_iff] at hbraced ⊢
  rw [guarded, List.append_assoc]
  simp [hguarded.keyword, hguarded.opening, hguarded.test, hguarded.closing, hbraced]

theorem acceptEach_function {opening parameters closing left body right : α}
    (hparameterized : Parameterized look opening parameters closing left body right) :
    Test.acceptEach look function [opening, parameters, closing, left, body, right] = true := by
  have hbraced := acceptEach_braced [] [] hparameterized.braced
  rw [List.append_nil] at hbraced
  simp [function, hparameterized.opening, hparameterized.parameters, hparameterized.closing, hbraced,
    Test.acceptEach]

/-- A function literal begins with its own keyword. -/
theorem functionLiteral_plan?_of_keyword {first : α} {others : List α} {word : String}
    (hchildren : (look subject).children = first :: others)
    (hword : (look first).isKeyword word = true) (hne : word ≠ "func") :
    functionLiteral.plan? look subject = none := by
  have hother := not_isKeyword hword hne
  cases hplan : functionLiteral.plan? look subject with
  | none => rfl
  | some edit =>
      obtain ⟨-, shape, hshape, haccepted, -⟩ := Rule.exists_of_plan? hplan
      rw [hchildren] at haccepted
      simp only [functionLiteral, List.mem_cons, List.not_mem_nil, or_false] at hshape
      rcases hshape with rfl | rfl <;> simp [hother] at haccepted

theorem not_arithmetic_of_comparison {kind : Kind} (hkind : kind.hasRole .comparisonOperator = true) :
    kind.hasRole .arithmeticOperator = false := by
  revert kind
  decide

/-- Every step can be the one that is planned, unless it lifts a literal that makes a definition. -/
theorem exists_plan?_of_step (hstep : Step look subject edit)
    (hlift : ∀ child, edit = .lift child →
      (look child).kind ≠ .construct .functionLiteral ∧
        (look child).kind ≠ .construct .classLiteral) :
    ∃ name, catalogue.plan? look subject = some (name, edit) := by
  -- Of the rules with as many children, those that come earlier are ruled out one by one.
  cases hstep with
  | unary hsubject hchildren hoperator hoperand =>
      apply exists_plan?_of_length 2 (by rw [hchildren]; rfl)
      refine exists_plan?_of_some unaryExpression (plan?_of_accepted rfl hsubject ?_ ?_)
      · simpa [hchildren, hoperand] using hoperator
      · exact build_plan? (by simp [Form.traverse?, descend_singleton, hchildren])
  | declaration hsubject hchildren hword hidentifier =>
      apply exists_plan?_of_length 2 (by rw [hchildren]; rfl)
      refine exists_plan?_of_none unaryExpression (plan?_of_rejected rfl ?_) ?_
      · simp [hchildren, kind_of_isKeyword hword]
      refine exists_plan?_of_some variableDeclaration (plan?_of_accepted rfl hsubject ?_ ?_)
      · simp [hchildren, hword, hidentifier]
      · exact build_plan? (by simp [Form.traverse?, descend_singleton, hchildren])
  | binary hsubject hchildren hleft hoperator hright =>
      apply exists_plan?_of_length 3 (by rw [hchildren]; rfl)
      refine exists_plan?_of_some binaryExpression (plan?_of_accepted rfl hsubject ?_ ?_)
      · simp [hchildren, hleft, hoperator, hright]
      · exact build_plan? (by simp [Form.traverse?, descend_singleton, hchildren])
  | comparison hsubject hchildren hleft hoperator hright =>
      have hother := not_arithmetic_of_comparison hoperator
      apply exists_plan?_of_length 3 (by rw [hchildren]; rfl)
      refine exists_plan?_of_none binaryExpression (plan?_of_rejected rfl ?_) ?_
      · simp [hchildren, hother]
      refine exists_plan?_of_some comparisonExpression
        (plan?_of_accepted rfl hsubject ?_ ?_)
      · simp [hchildren, hleft, hoperator, hright]
      · exact build_plan? (by simp [Form.traverse?, descend_singleton, hchildren])
  | assignment hsubject hchildren htarget hmark hvalue =>
      apply exists_plan?_of_length 3 (by rw [hchildren]; rfl)
      refine exists_plan?_of_none binaryExpression (plan?_of_rejected rfl ?_) ?_
      · simp [hchildren, hmark, Kind.hasRole, Operator.isArithmetic]
      refine exists_plan?_of_none comparisonExpression (plan?_of_rejected rfl ?_) ?_
      · simp [hchildren, hmark, Kind.hasRole, Operator.isComparison]
      refine exists_plan?_of_some variableAssignment (plan?_of_accepted rfl hsubject ?_ ?_)
      · simpa [hchildren, hmark, hvalue] using htarget
      · exact build_plan? (by simp [Form.traverse?, descend_singleton, hchildren])
  | @indexWrite target mark value callee arguments hsubject hchildren htarget hmark hvalue =>
      have hkind : (look target).kind = .construct .callExpression := by rw [htarget]; rfl
      have hfields : (look target).children = [callee, arguments] := by rw [htarget]; rfl
      apply exists_plan?_of_length 3 (by rw [hchildren]; rfl)
      refine exists_plan?_of_none binaryExpression (plan?_of_rejected rfl ?_) ?_
      · simp [hchildren, hmark, Kind.hasRole, Operator.isArithmetic]
      refine exists_plan?_of_none comparisonExpression (plan?_of_rejected rfl ?_) ?_
      · simp [hchildren, hmark, Kind.hasRole, Operator.isComparison]
      refine exists_plan?_of_none variableAssignment (plan?_of_rejected rfl ?_) ?_
      · simp [hchildren, hkind]
      refine exists_plan?_of_some arrayIndexWrite (plan?_of_accepted rfl hsubject ?_ ?_)
      · simp [hchildren, hkind, hmark, hvalue]
      · exact build_plan? (by simp [Form.traverse?, descend, hchildren, hfields])
  | member hsubject hchildren hobject hdot hproperty =>
      apply exists_plan?_of_length 3 (by rw [hchildren]; rfl)
      refine exists_plan?_of_none binaryExpression (plan?_of_rejected rfl ?_) ?_
      · simp [hchildren, hdot, Kind.hasRole]
      refine exists_plan?_of_none comparisonExpression (plan?_of_rejected rfl ?_) ?_
      · simp [hchildren, hdot, Kind.hasRole]
      refine exists_plan?_of_none variableAssignment (plan?_of_rejected rfl ?_) ?_
      · simp [hchildren, hdot]
      refine exists_plan?_of_none arrayIndexWrite (plan?_of_rejected rfl ?_) ?_
      · simp [hchildren, hdot]
      refine exists_plan?_of_some memberExpression (plan?_of_accepted rfl hsubject ?_ ?_)
      · simp [hchildren, hobject, hdot, hproperty]
      · exact build_plan? (by simp [Form.traverse?, descend_singleton, hchildren])
  | initialisation hsubject hchildren hword hidentifier hmark hvalue =>
      apply exists_plan?_of_length 4 (by rw [hchildren]; rfl)
      refine exists_plan?_of_some variableInitialisation
        (plan?_of_accepted rfl hsubject ?_ ?_)
      · simp [hchildren, hword, hidentifier, hmark, hvalue]
      · exact build_plan? (by simp [Form.traverse?, descend_singleton, hchildren])
  | call hsubject hchildren hopening harguments hclosing =>
      apply exists_plan?_of_length 4 (by rw [hchildren]; rfl)
      refine exists_plan?_of_none variableInitialisation (plan?_of_rejected rfl ?_) ?_
      · simp [hchildren, hopening]
      refine exists_plan?_of_some callExpression (plan?_of_accepted rfl hsubject ?_ ?_)
      · simp [hchildren, hopening, harguments, hclosing]
      · exact build_plan? (by simp [Form.traverse?, descend_singleton, hchildren])
  | classLiteral hsubject hchildren hword hname hbraced =>
      apply exists_plan?_of_length 5 (by rw [hchildren]; rfl)
      refine exists_plan?_of_some classLiteral (plan?_of_accepted rfl hsubject ?_ ?_)
      · have haccepted := acceptEach_braced [] [] hbraced
        rw [List.append_nil] at haccepted
        simp [hchildren, hword, hname, haccepted, Test.acceptEach]
      · simp [Outcome.plan?, hchildren]
  | namedFunction hsubject hchildren hword hname hparameterized =>
      apply exists_plan?_of_length 8 (by rw [hchildren]; rfl)
      refine exists_plan?_of_some functionLiteral (plan?_of_accepted rfl hsubject ?_ ?_)
      · simp [hchildren, hword, hname, acceptEach_function hparameterized]
      · exact build_plan? (by simp [Form.traverse?, descend_singleton, hchildren])
  | unnamedFunction hsubject hchildren hword hparameterized =>
      apply exists_plan?_of_length 7 (by rw [hchildren]; rfl)
      refine exists_plan?_of_some functionLiteral (plan?_of_second rfl hsubject ?_ ?_ ?_)
      · simp [hchildren, hparameterized.opening]
      · simp [hchildren, hword, acceptEach_function hparameterized]
      · exact build_plan? (by simp [Form.traverse?, descend_singleton, hchildren])
  | unwrapIf hsubject hchildren hchild =>
      apply exists_plan?_of_length 1 (by rw [hchildren]; rfl)
      refine exists_plan?_of_some unwrapIfStatement (plan?_of_accepted rfl ?_ ?_ ?_)
      · rw [hsubject]
        rfl
      · simpa [hchildren] using hchild
      · exact lift_plan? (by rw [hchildren]; rfl)
  | ifStatement hsubject hchildren hguarded =>
      apply exists_plan?_of_length 7 (by rw [hchildren]; rfl)
      refine exists_plan?_of_none functionLiteral
        (functionLiteral_plan?_of_keyword hchildren hguarded.keyword (by decide)) ?_
      refine exists_plan?_of_some ifStatement (plan?_of_accepted rfl ?_ ?_ ?_)
      · rw [hsubject]
        rfl
      · rw [hchildren]
        exact acceptEach_guarded [] [] hguarded
      · exact build_plan? (by simp [Form.traverse?, descend_singleton, hchildren])
  | ifElse hsubject hchildren hguarded hjoin hbraced =>
      apply exists_plan?_of_length 11 (by rw [hchildren]; rfl)
      refine exists_plan?_of_some ifElseStatement (plan?_of_accepted rfl ?_ ?_ ?_)
      · rw [hsubject]
        rfl
      · have haccepted := acceptEach_braced [] [] hbraced
        rw [List.append_nil] at haccepted
        rw [hchildren]
        change Test.acceptEach look (guarded "if" ++ [.keyword "else"] ++ braced) _ = true
        rw [List.append_assoc, acceptEach_guarded _ _ hguarded]
        simp [hjoin, haccepted, Test.acceptEach]
      · exact build_plan? (by simp [Form.traverse?, descend_singleton, hchildren])
  | elseIf hsubject hchildren hguarded hjoin halternate =>
      apply exists_plan?_of_length 9 (by rw [hchildren]; rfl)
      refine exists_plan?_of_some elseIfChain (plan?_of_accepted rfl ?_ ?_ ?_)
      · rw [hsubject]
        rfl
      · rw [hchildren]
        refine (acceptEach_guarded _ _ hguarded).trans ?_
        simp [hjoin, halternate]
      · exact build_plan? (by simp [Form.traverse?, descend_singleton, hchildren])
  | whileStatement hsubject hchildren hguarded =>
      apply exists_plan?_of_length 7 (by rw [hchildren]; rfl)
      refine exists_plan?_of_none functionLiteral
        (functionLiteral_plan?_of_keyword hchildren hguarded.keyword (by decide)) ?_
      refine exists_plan?_of_none ifStatement (plan?_of_subject ?_) ?_
      · rw [hsubject]
        rfl
      refine exists_plan?_of_some whileStatement (plan?_of_accepted rfl ?_ ?_ ?_)
      · rw [hsubject]
        rfl
      · rw [hchildren]
        exact acceptEach_guarded [] [] hguarded
      · exact build_plan? (by simp [Form.traverse?, descend_singleton, hchildren])
  | functionDefinition hsubject hchildren hchild =>
      apply exists_plan?_of_length 1 (by rw [hchildren]; rfl)
      refine exists_plan?_of_none unwrapIfStatement (plan?_of_rejected rfl ?_) ?_
      · simp [hchildren, hchild]
      refine exists_plan?_of_some functionDefinition (plan?_of_accepted rfl ?_ ?_ ?_)
      · rw [hsubject]
        rfl
      · simp [hchildren, hchild]
      · exact build_plan? (by simp [Form.traverse?, descend_singleton, hchildren])
  | classDefinition hsubject hchildren hchild =>
      apply exists_plan?_of_length 1 (by rw [hchildren]; rfl)
      refine exists_plan?_of_none unwrapIfStatement (plan?_of_rejected rfl ?_) ?_
      · simp [hchildren, hchild]
      refine exists_plan?_of_none functionDefinition (plan?_of_rejected rfl ?_) ?_
      · simp [hchildren, hchild]
      refine exists_plan?_of_some classDefinition (plan?_of_accepted rfl ?_ ?_ ?_)
      · rw [hsubject]
        rfl
      · simp [hchildren, hchild]
      · exact build_plan? (by simp [Form.traverse?, descend_singleton, hchildren])
  | @unwrapSettled child hsubject hchildren hchild =>
      obtain ⟨hfunction, hclass⟩ := hlift child rfl
      apply exists_plan?_of_length 1 (by rw [hchildren]; rfl)
      -- An if statement is settled too, and is lifted one rule earlier.
      by_cases hunwrap : unwrapIfStatement.plan? look subject = none
      case neg =>
        obtain ⟨edit, hplan⟩ := Option.ne_none_iff_exists'.mp hunwrap
        obtain ⟨-, haccepted, hlifted⟩ := Rule.of_plan? rfl hplan
        obtain ⟨lifted, hlone, -, rfl⟩ := lift_of_plan? haccepted hlifted
        obtain rfl : child = lifted := List.singleton_inj.mp (hchildren.symm.trans hlone)
        exact exists_plan?_of_some unwrapIfStatement hplan
      refine exists_plan?_of_none unwrapIfStatement hunwrap ?_
      refine exists_plan?_of_none functionDefinition (plan?_of_rejected rfl ?_) ?_
      · simp [hchildren, hfunction]
      refine exists_plan?_of_none classDefinition (plan?_of_rejected rfl ?_) ?_
      · simp [hchildren, hclass]
      refine exists_plan?_of_some unwrapSettled (plan?_of_accepted rfl ?_ ?_ ?_)
      · exact isGrouping_of_mem hsubject
      · rw [hchildren]
        exact Test.acceptEach_cons_cons.mpr ⟨hchild, rfl⟩
      · exact lift_plan? (by rw [hchildren]; rfl)
  | dropEmpty hsubject hchildren =>
      apply exists_plan?_of_length 0 (by rw [hchildren]; rfl)
      refine exists_plan?_of_some dropEmptyStatement (plan?_of_accepted rfl ?_ ?_ rfl)
      · rw [hsubject]
        rfl
      · rw [hchildren]
        rfl

end Promotion

end AstPromotion
