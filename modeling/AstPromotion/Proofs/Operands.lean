import AstPromotion.Proofs.Conservation
import AstPromotion.Proofs.Reduction

/-! # Operands

An operand reduces inside an expression as it does in a program of its own, since
the operator stands in second place. Promotion then finds the operands as it leaves
them alone, and keeps them in the construct it builds.
-/

namespace AstPromotion

/-! ## The construct of an operator -/

namespace Form

variable {α β : Type}

/-- A binary expression if the operator is arithmetic, a comparison otherwise. -/
def operation (sign : Operator) (mark left right : α) : Form α :=
  if sign.isArithmetic then .binary mark left right else .comparison mark left right

theorem children_operation (sign : Operator) (mark left right : α) :
    (operation sign mark left right).children = [left, mark, right] := by
  unfold operation
  split <;> rfl

theorem kind_operation (sign : Operator) (mark left right : α) :
    (operation sign mark left right).kind = .construct .binaryExpression ∨
      (operation sign mark left right).kind = .construct .comparisonExpression := by
  unfold operation
  split
  · exact Or.inl rfl
  · exact Or.inr rfl

theorem map_operation (f : α → β) (sign : Operator) (mark left right : α) :
    (operation sign mark left right).map f = operation sign (f mark) (f left) (f right) := by
  unfold operation
  split <;> rfl

theorem exists_of_map_eq_operation {f : α → β} {form : Form α} {sign : Operator}
    {mark left right : β} (hform : form.map f = operation sign mark left right) :
    ∃ mark' left' right', form = operation sign mark' left' right' ∧ f mark' = mark ∧
      f left' = left ∧ f right' = right := by
  unfold operation at hform ⊢
  by_cases harithmetic : sign.isArithmetic = true
  · simp only [if_pos harithmetic] at hform ⊢
    cases form with
    | binary mark' left' right' =>
        cases hform
        exact ⟨mark', left', right', rfl, rfl, rfl, rfl⟩
    | _ => cases hform
  · simp only [if_neg harithmetic] at hform ⊢
    cases form with
    | comparison mark' left' right' =>
        cases hform
        exact ⟨mark', left', right', rfl, rfl, rfl, rfl⟩
    | _ => cases hform

end Form

namespace Language

open Term (node leftoverIn?)

variable {sign : Operator} {left right left' right' : Term Unit}

/-- An operator between two items, before promotion. -/
abbrev operation (sign : Operator) (left right : Term Unit) : Term Unit :=
  list (.provisional .expression) [left, operatorLeaf sign, right]

theorem Reduces.around (hleft : Reduces [left] [left']) (hright : Reduces [right] [right'])
    (sign : Operator) :
    Reduces [left, operatorLeaf sign, right] [left', operatorLeaf sign, right'] := by
  have hmark : Reduces [operatorLeaf sign] [operatorLeaf sign] := Reduces.mark rfl
  exact hleft.append (hmark.append hright)

/-- Two operands with an operator between them reduce to the construct over what they reduce to. -/
theorem Reduces.operation (hleft : Reduces [left] [left']) (hright : Reduces [right] [right'])
    (hsign : sign.isArithmetic = true ∨ sign.isComparison = true)
    (hoperand : left'.kind.isOperand = true) (hoperand' : right'.kind.isOperand = true) :
    Reduces [Language.operation sign left right]
      [node () (.operation sign (operatorLeaf sign) left' right')] := by
  refine Reduces.expression ⟨left, .operator sign, [right], rfl, rfl⟩ (hleft.around hright sign)
    (Nat.le_refl _) (remaining_of_build ?_)
  unfold Form.operation
  split
  next harithmetic => exact .binary rfl rfl hoperand harithmetic hoperand'
  next harithmetic =>
      exact .comparison rfl rfl hoperand (hsign.resolve_left harithmetic) hoperand'

/-! ## Programs of one item -/

/-- How an item compiles to one operand. -/
structure Operand (item tree : Term Unit) : Prop where
  reduces : Reduces [item] [tree]
  isOperand : tree.kind.isOperand = true
  accepted : Accepted tree

/-- Two operands with an operator between them compile to the construct over what they compile to
alone. -/
theorem Operand.compiles {file source : String} {result : List (Term Unit)} {optimized : Optimized}
    (hleft : Operand left left') (hright : Operand right right')
    (hsign : sign.isArithmetic = true ∨ sign.isComparison = true)
    (hcompiles : Compiles file source [operation sign left right] result optimized) :
    result = [node () (.operation sign (operatorLeaf sign) left' right')] ∧
      leftoverIn? result = none := by
  have hreduces :=
    hleft.reduces.operation hright.reduces hsign hleft.isOperand hright.isOperand
  obtain rfl := hreduces.eq_of_compiles hcompiles
  refine ⟨rfl, leftoverIn?_eq_none_iff.mpr (List.forall_mem_singleton.mpr ?_)⟩
  exact accepted_operation (Form.kind_operation _ _ _ _) (Form.children_operation _ _ _ _)
    hleft.accepted hright.accepted

end Language

/-! ## Programs that were read -/

open AstPromotion.Language (Operand)
open Term (leftoverIn?)

variable {file source : String} {items result : List (Term Unit)} {optimized : Optimized}

theorem Compiles.exists_bears (hcompiles : Compiles file source items result optimized) :
    ∃ term : Term Id, term.label = optimized.root ∧ optimized.arena.Bears term ∧
      term.children.map Term.erase = result := by
  obtain ⟨term, hlabel, hbears⟩ := (Arena.isTree_of_optimizeSource hcompiles.unchecked).exists_bears
  have herase := hcompiles.ast_eq
  rw [← hlabel, hbears.ast_eq] at herase
  refine ⟨term, hlabel, hbears, ?_⟩
  have hchildren := congrArg Term.children herase
  rwa [Term.erase, Term.children_map] at hchildren

/-- What is found below the root is what the items compile to. -/
theorem Compiles.map_ast_children (hcompiles : Compiles file source items result optimized) :
    (optimized.arena.children optimized.root).map optimized.arena.ast = result := by
  obtain ⟨term, hlabel, hbears, rfl⟩ := hcompiles.exists_bears
  rw [← hlabel, hbears.holds.children_eq, List.map_map]
  exact List.map_congr_left fun child hchild => (hbears.of_mem_children hchild).ast_eq

theorem Compiles.map_kind_children (hcompiles : Compiles file source items result optimized) :
    (optimized.arena.children optimized.root).map optimized.arena.kind = result.map Term.kind := by
  obtain ⟨term, hlabel, hbears, rfl⟩ := hcompiles.exists_bears
  rw [← hlabel, hbears.holds.children_eq, List.map_map, List.map_map]
  refine List.map_congr_left fun child hchild => ?_
  rw [Function.comp_apply, Function.comp_apply, Term.erase, Term.kind_map]
  exact (hbears.of_mem_children hchild).holds.kind_eq

/-- A program of a single operation, as it is found in the arena. -/
theorem Compiles.exists_operation {sign : Operator} {left right : Term Unit}
    (hcompiles : Compiles file source items
      [.node () (.operation sign (Language.operatorLeaf sign) left right)] optimized) :
    ∃ expression mark left' right', optimized.arena.children optimized.root = [expression] ∧
      optimized.arena.form expression = .operation sign mark left' right' ∧
        optimized.arena.form mark = .leaf (.mark (.operator sign)) (.raw sign.spelling) ∧
          optimized.arena.ast left' = left ∧ optimized.arena.ast right' = right := by
  obtain ⟨term, hlabel, hbears, hchildren⟩ := hcompiles.exists_bears
  obtain ⟨expression, hexpression, herase⟩ := List.map_eq_singleton_iff.mp hchildren
  have hbelow : optimized.arena.Bears expression :=
    hbears.of_mem_children (hexpression ▸ List.mem_cons_self)
  have herased := congrArg Term.form herase
  rw [Term.erase, Term.form_map, Term.form_node] at herased
  obtain ⟨mark, left', right', hform, hmark, hleft, hright⟩ :=
    Form.exists_of_map_eq_operation herased
  have hparts : expression.children = [left', mark, right'] := by
    rw [Term.children, hform, Form.children_operation]
  have hbears_of {part : Term Id} (hpart : part ∈ [left', mark, right']) :
      optimized.arena.Bears part := hbelow.of_mem_children (hparts ▸ hpart)
  refine ⟨expression.label, mark.label, left'.label, right'.label, ?_, ?_, ?_, ?_, ?_⟩
  · rw [← hlabel, hbears.holds.children_eq, hexpression]
    rfl
  · rw [hbelow.holds.form_eq, hform, Form.map_operation]
  · have hleaf := congrArg Term.form hmark
    rw [Term.form_map] at hleaf
    rw [(hbears_of (by simp)).holds.form_eq, Form.map_eq_leaf_iff]
    exact Form.map_eq_leaf_iff.mp hleaf
  · rw [(hbears_of (by simp)).ast_eq]
    exact hleft
  · rw [(hbears_of (by simp)).ast_eq]
    exact hright

/-- A program of one item that is accepted and leaves a single operand. -/
theorem exists_operand {item : Sketch} {one : Optimized} {left : Id}
    (hparse : Sketch.parse source = .ok (.group .program [item]))
    (hok : (optimizeSource file source).1 = .ok one)
    (hchildren : one.arena.children one.root = [left])
    (hoperand : (one.arena.kind left).isOperand = true) :
    Operand (item.toTerm file) (one.arena.ast left) := by
  obtain ⟨result, optimized, hcompiles⟩ := exists_compiles file hparse
  obtain ⟨hnone, rfl⟩ := hcompiles.of_checked_eq_ok hok
  have htrees := hcompiles.map_ast_children
  have hkinds := hcompiles.map_kind_children
  rw [hchildren, List.map_singleton] at htrees hkinds
  subst htrees
  rw [List.map_singleton, List.singleton_inj] at hkinds
  rw [hkinds] at hoperand
  exact ⟨.of_compiles hcompiles (List.forall_mem_singleton.mpr (item.shallow_toTerm file)), hoperand,
    Language.accepted_of_leftoverIn? hnone⟩

/-- An expression with an operator between two items. -/
abbrev Sketch.operation (sign : Operator) (item other : Sketch) : Sketch :=
  .group (.provisional .expression) [item, .leaf (.mark (.operator sign)), other]

/-- How a program with an operator between two items compiles: to a single construct of that
operator, over what is left of the two items alone. -/
structure Joined (sign : Operator) (one : Optimized) (left : Id) (two : Optimized) (right : Id)
    (whole : Optimized) : Prop where
  tree : whole.arena.IsTree whole.root
  construct : ∃ expression mark left' right', whole.arena.children whole.root = [expression] ∧
    whole.arena.form expression = .operation sign mark left' right' ∧
      whole.arena.form mark = .leaf (.mark (.operator sign)) (.raw sign.spelling) ∧
        whole.arena.ast left' = one.arena.ast left ∧ whole.arena.ast right' = two.arena.ast right

/-- Both sides of an operator stay intact. If two programs of one item each are accepted and leave a
single value each, then the two items can be written with an arithmetic or comparison operator
between them, and however that is written, it is accepted and compiles to an expression over the two
values as they were. -/
theorem joined_of_parse (file : String) {sign : Operator} {item other : Sketch}
    {first second : String} {one two : Optimized} {left right : Id}
    (hsign : sign.isArithmetic = true ∨ sign.isComparison = true)
    (hfirst : Sketch.parse first = .ok (.group .program [item]))
    (hsecond : Sketch.parse second = .ok (.group .program [other]))
    (hone : (optimizeSource file first).1 = .ok one)
    (htwo : (optimizeSource file second).1 = .ok two)
    (hleft : one.arena.children one.root = [left])
    (hright : two.arena.children two.root = [right])
    (hoperand : (one.arena.kind left).isOperand = true)
    (hoperand' : (two.arena.kind right).isOperand = true) :
    Sketch.parse (Sketch.group .program [.operation sign item other]).render =
        .ok (.group .program [.operation sign item other]) ∧
      ∀ both, Sketch.parse both = .ok (.group .program [.operation sign item other]) →
        ∃ whole, (optimizeSource file both).1 = .ok whole ∧
          Joined sign one left two right whole := by
  constructor
  · apply Sketch.parse_render
    have hproper := (Sketch.parse_eq_ok_iff.mp hfirst).1.proper
    have hproper' := (Sketch.parse_eq_ok_iff.mp hsecond).1.proper
    simp only [Sketch.tokens, Sketch.tokensEach, List.append_nil] at hproper hproper' ⊢
    rw [List.forall_mem_append, List.forall_mem_append]
    exact ⟨hproper, List.forall_mem_singleton.mpr True.intro, hproper'⟩
  · intro both hboth
    have hitem := exists_operand hfirst hone hleft hoperand
    have hother := exists_operand hsecond htwo hright hoperand'
    obtain ⟨result, whole, hcompiles⟩ := exists_compiles file hboth
    rw [List.map_singleton, Sketch.toTerm_group] at hcompiles
    obtain ⟨rfl, hnone⟩ := hitem.compiles hother hsign hcompiles
    refine ⟨whole, ?_, Arena.isTree_of_optimizeSource hcompiles.unchecked,
      hcompiles.exists_operation⟩
    rw [hcompiles.checked, hnone]

/-- A numeral in two expressions. -/
def wrappedNumeral : Sketch :=
  .group (.provisional .expression) [.group (.provisional .expression) [.leaf (.number "1")]]

/-- A call in parentheses, in a statement. -/
def statedCall : Sketch :=
  .group (.provisional .statement) [
    .group (.provisional .expression) [
      .leaf (.mark (.punctuation .leftParen)),
      .group (.provisional .expression) [
        .leaf (.word "f"), .leaf (.mark (.punctuation .leftParen)), .group .expressionList [],
        .leaf (.mark (.punctuation .rightParen))],
      .leaf (.mark (.punctuation .rightParen))],
    .leaf (.mark (.punctuation .semicolon))]

def statedCallSource : String :=
  "(Program (Statement (Expression '(' (Expression f '(' (ExpressionList) ')') ')') ';'))"

theorem joined_of_parse_call :
    ∃ one left two right whole,
      (optimizeSource "main" "(Program (Expression (Expression 1)))").1 = .ok one ∧
        (optimizeSource "main" statedCallSource).1 = .ok two ∧
          Joined .smallerEqual one left two right whole := by
  have hsign : Operator.smallerEqual.isArithmetic = true ∨
      Operator.smallerEqual.isComparison = true := Or.inr rfl
  have hfirst : Sketch.parse "(Program (Expression (Expression 1)))" =
      .ok (.group .program [wrappedNumeral]) := by
    cbv
  have hsecond : Sketch.parse statedCallSource = .ok (.group .program [statedCall]) := by
    cbv
  obtain ⟨one, hone, left, -, hleft, hoperand⟩ : ∃ one,
      (optimizeSource "main" "(Program (Expression (Expression 1)))").1 = .ok one ∧
        ∃ left ∈ one.arena.children one.root, one.arena.children one.root = [left] ∧
          (one.arena.kind left).isOperand = true :=
    exists_of_any_toOption (by decide +kernel)
  obtain ⟨two, htwo, right, -, hright, hoperand'⟩ : ∃ two,
      (optimizeSource "main" statedCallSource).1 = .ok two ∧
        ∃ right ∈ two.arena.children two.root, two.arena.children two.root = [right] ∧
          (two.arena.kind right).isOperand = true :=
    exists_of_any_toOption (by decide +kernel)
  obtain ⟨hrender, hjoined⟩ :=
    joined_of_parse "main" hsign hfirst hsecond hone htwo hleft hright hoperand hoperand'
  obtain ⟨whole, -, hwhole⟩ := hjoined _ hrender
  exact ⟨one, left, two, right, whole, hone, htwo, hwhole⟩

end AstPromotion
