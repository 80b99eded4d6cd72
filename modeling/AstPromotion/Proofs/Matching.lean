import AstPromotion.Proofs.Planning

/-! # Matching shapes

What follows when a rule has matched: the tests its subject's children passed,
one after another, and the plan of its outcome.
-/

namespace AstPromotion

variable {α : Type} {look : α → Form α}

namespace Test

@[simp] theorem acceptEach_nil {nodes : List α} : acceptEach look [] nodes = true ↔ nodes = [] := by
  cases nodes <;> simp [acceptEach]

@[simp] theorem acceptEach_cons_cons {test : Test} {tests : List Test} {node : α}
    {nodes : List α} :
    acceptEach look (test :: tests) (node :: nodes) = true ↔
      test.accepts (look node) = true ∧ acceptEach look tests nodes = true := by
  rw [acceptEach, Bool.and_eq_true]

theorem acceptEach_cons {test : Test} {tests : List Test} {nodes : List α} :
    acceptEach look (test :: tests) nodes = true ↔
      ∃ node rest, nodes = node :: rest ∧ test.accepts (look node) = true ∧
        acceptEach look tests rest = true := by
  cases nodes with
  | nil => simp [acceptEach]
  | cons node nodes =>
      rw [acceptEach_cons_cons]
      constructor
      · rintro ⟨hnode, hnodes⟩
        exact ⟨node, nodes, rfl, hnode, hnodes⟩
      · rintro ⟨_, _, ⟨⟩, hnode, hnodes⟩
        exact ⟨hnode, hnodes⟩

@[simp] theorem accepts_any {form : Form α} : any.accepts form = true :=
  rfl

@[simp] theorem accepts_exactly {kinds : List Kind} {form : Form α} :
    (exactly kinds).accepts form = true ↔ form.kind ∈ kinds := by
  simp [exactly, accepts]

@[simp] theorem accepts_role {role : Role} {form : Form α} :
    (Test.role role).accepts form = true ↔ form.kind.hasRole role = true :=
  Iff.rfl

@[simp] theorem accepts_operand {form : Form α} :
    operand.accepts form = true ↔ form.kind.isOperand = true :=
  Iff.rfl

@[simp] theorem accepts_identifier {form : Form α} :
    identifier.accepts form = true ↔ form.kind = .leaf (.literal .identifier) := by
  simp [identifier]

@[simp] theorem accepts_sign {sign : Punctuation} {form : Form α} :
    (Test.sign sign).accepts form = true ↔ form.kind = .leaf (.mark (.punctuation sign)) := by
  simp [Test.sign]

@[simp] theorem accepts_operator {sign : Operator} {form : Form α} :
    (Test.operator sign).accepts form = true ↔ form.kind = .leaf (.mark (.operator sign)) := by
  simp [Test.operator]

@[simp] theorem accepts_keyword {word : String} {form : Form α} :
    (keyword word).accepts form = true ↔ form.isKeyword word = true :=
  Iff.rfl

end Test

/-- A rule's plan comes from one of its shapes. -/
theorem Rule.exists_of_plan? {rule : Rule} {subject : α} {edit : Edit α}
    (hplan : rule.plan? look subject = some edit) :
    rule.subject (look subject).kind = true ∧
      ∃ shape ∈ rule.shapes, Test.acceptEach look shape.children (look subject).children = true ∧
        shape.outcome.plan? look subject = some edit := by
  rw [Rule.plan?] at hplan
  split at hplan
  next hsubject =>
      obtain ⟨shape, hshape, hplan⟩ := List.exists_of_findSome?_eq_some hplan
      rw [Shape.plan?] at hplan
      split at hplan
      next haccepted => exact ⟨hsubject, shape, hshape, haccepted, hplan⟩
      next => cases hplan
  next => cases hplan

theorem Rule.of_plan? {rule : Rule} {shape : Shape} {subject : α} {edit : Edit α}
    (hshapes : rule.shapes = [shape]) (hplan : rule.plan? look subject = some edit) :
    rule.subject (look subject).kind = true ∧
      Test.acceptEach look shape.children (look subject).children = true ∧
        shape.outcome.plan? look subject = some edit := by
  obtain ⟨hsubject, found, hfound, haccepted, hplan⟩ := Rule.exists_of_plan? hplan
  rw [hshapes, List.mem_singleton] at hfound
  subst hfound
  exact ⟨hsubject, haccepted, hplan⟩

theorem Catalogue.exists_of_plan? {rules : Catalogue} {subject : α} {name : String} {edit : Edit α}
    (hplan : rules.plan? look subject = some (name, edit)) :
    ∃ rule ∈ rules, rule.name = name ∧ rule.plan? look subject = some edit := by
  obtain ⟨rule, hrule, hplan⟩ := List.exists_of_findSome?_eq_some hplan
  obtain ⟨found, hfound, heq⟩ := Option.map_eq_some_iff.mp hplan
  obtain ⟨rfl, rfl⟩ := Prod.mk.inj heq
  exact ⟨rule, hrule, rfl, hfound⟩

/-- If a shape of some rule matches, the catalogue plans something. -/
theorem Catalogue.plan?_ne_none {rules : Catalogue} {subject : α} {shape : Shape}
    {edit : Edit α} (rule : Rule) (hrule : rule ∈ rules) (hsubject : rule.subject (look subject).kind = true)
    (hshape : shape ∈ rule.shapes)
    (haccepted : Test.acceptEach look shape.children (look subject).children = true)
    (hplan : shape.outcome.plan? look subject = some edit) :
    rules.plan? look subject ≠ none := by
  intro hnone
  have hrule := List.findSome?_eq_none_iff.mp hnone rule hrule
  rw [Option.map_eq_none_iff, Rule.plan?, if_pos hsubject] at hrule
  have hshape := List.findSome?_eq_none_iff.mp hrule shape hshape
  rw [Shape.plan?, if_pos haccepted, hplan] at hshape
  cases hshape

/-- The node that a rule with one test lifts. -/
theorem lift_of_plan? {test : Test} {subject : α} {edit : Edit α}
    (haccepted : Test.acceptEach look [test] (look subject).children = true)
    (hplan : (Outcome.lift 0).plan? look subject = some edit) :
    ∃ child, (look subject).children = [child] ∧ test.accepts (look child) = true ∧
      edit = .lift child := by
  simp only [Test.acceptEach_cons, Test.acceptEach_nil] at haccepted
  obtain ⟨child, _, hchildren, hchild, rfl⟩ := haccepted
  rw [Outcome.plan?, hchildren] at hplan
  exact ⟨child, hchildren, hchild, (Option.some.inj hplan).symm⟩

end AstPromotion
