import AstPromotion.Role
import AstPromotion.Value

/-! # Forms

A form is what a node holds, over whatever stands for its children: ids in an
arena, places in a rule, nothing at all in a label. Groups list their children,
constructs name them, and `children` gives both in source order.
-/

namespace AstPromotion

/-- What heads a list of children: a group kind, with the data that a program carries. -/
inductive Heading
  | provisional (grouping : Provisional)
  | block
  | program (file : String) (shouldExecute : Bool)
  | argumentList
  | expressionList
deriving DecidableEq, Repr

def Heading.kind : Heading → GroupKind
  | .provisional grouping => .provisional grouping
  | .block => .block
  | .program _ _ => .program
  | .argumentList => .argumentList
  | .expressionList => .expressionList

/-- The content of a node whose children are of type `α`. -/
inductive Form (α : Type)
  | leaf (kind : LeafKind) (value : Value)
  | group (heading : Heading) (items : List α)
  | unary (operator operand : α)
  | binary (operator left right : α)
  | comparison (operator left right : α)
  | variableDeclaration (identifier : α)
  | variableInitialisation (identifier expression : α)
  | variableAssignment (target value : α)
  | arrayIndexWrite (array index value : α)
  | call (callee arguments : α)
  | member (object property : α)
  | functionLiteral (name : Option α) (parameters body : α)
  | functionDefinition (function : α)
  | classLiteral (name : α) (constructor : Option α) (body : α)
  | classDefinition (literal : α)
  | ifStatement (test consequent : α) (alternate : Option α)
  | whileStatement (test consequent : α)
deriving DecidableEq, Repr

namespace Form

variable {α β : Type}

/-- An empty block, which no rule ever takes for its subject. -/
instance : Inhabited (Form α) := ⟨.group .block []⟩

def kind : Form α → Kind
  | .leaf kind _ => .leaf kind
  | .group heading _ => .group heading.kind
  | .unary .. => .construct .unaryExpression
  | .binary .. => .construct .binaryExpression
  | .comparison .. => .construct .comparisonExpression
  | .variableDeclaration .. => .construct .variableDeclaration
  | .variableInitialisation .. => .construct .variableInitialisation
  | .variableAssignment .. => .construct .variableAssignment
  | .arrayIndexWrite .. => .construct .arrayIndexWrite
  | .call .. => .construct .callExpression
  | .member .. => .construct .memberExpression
  | .functionLiteral .. => .construct .functionLiteral
  | .functionDefinition .. => .construct .functionDefinition
  | .classLiteral .. => .construct .classLiteral
  | .classDefinition .. => .construct .classDefinition
  | .ifStatement .. => .construct .ifStatement
  | .whileStatement .. => .construct .whileStatement

/-- The children in source order: an operator stands between its operands. -/
def children : Form α → List α
  | .leaf _ _ => []
  | .group _ items => items
  | .unary operator operand => [operator, operand]
  | .binary operator left right | .comparison operator left right => [left, operator, right]
  | .variableDeclaration identifier => [identifier]
  | .variableInitialisation identifier expression => [identifier, expression]
  | .variableAssignment target value => [target, value]
  | .arrayIndexWrite array index value => [array, index, value]
  | .call callee arguments => [callee, arguments]
  | .member object property => [object, property]
  | .functionLiteral name parameters body => name.toList ++ [parameters, body]
  | .functionDefinition function => [function]
  | .classLiteral name constructor body => name :: constructor.toList ++ [body]
  | .classDefinition literal => [literal]
  | .ifStatement test consequent alternate => test :: consequent :: alternate.toList
  | .whileStatement test consequent => [test, consequent]

/-- The new occupant of a required field: the entry at `position`, or the old occupant if there
is none. -/
def keep (entries : List (Option α)) (position : Nat) (old : α) : α :=
  (entries[position]?.join).getD old

/-- The form after its children were visited: entry for entry in the order of `children`, with
`none` for a child that was removed. A list drops it and an optional field is cleared, but a
required field cannot be vacated and keeps its child. An entry that is missing at the end counts
as `none`; entries beyond the last child are ignored. -/
def refill (form : Form α) (entries : List (Option α)) : Form α :=
  match form with
  | .leaf kind value => .leaf kind value
  | .group heading items => .group heading ((entries.take items.length).filterMap id)
  | .unary operator operand => .unary (keep entries 0 operator) (keep entries 1 operand)
  | .binary operator left right =>
    .binary (keep entries 1 operator) (keep entries 0 left) (keep entries 2 right)
  | .comparison operator left right =>
    .comparison (keep entries 1 operator) (keep entries 0 left) (keep entries 2 right)
  | .variableDeclaration identifier => .variableDeclaration (keep entries 0 identifier)
  | .variableInitialisation identifier expression =>
    .variableInitialisation (keep entries 0 identifier) (keep entries 1 expression)
  | .variableAssignment target value =>
    .variableAssignment (keep entries 0 target) (keep entries 1 value)
  | .arrayIndexWrite array index value =>
    .arrayIndexWrite (keep entries 0 array) (keep entries 1 index) (keep entries 2 value)
  | .call callee arguments => .call (keep entries 0 callee) (keep entries 1 arguments)
  | .member object property => .member (keep entries 0 object) (keep entries 1 property)
  | .functionLiteral none parameters body =>
    .functionLiteral none (keep entries 0 parameters) (keep entries 1 body)
  | .functionLiteral (some _) parameters body =>
    .functionLiteral entries[0]?.join (keep entries 1 parameters) (keep entries 2 body)
  | .functionDefinition function => .functionDefinition (keep entries 0 function)
  | .classLiteral name none body => .classLiteral (keep entries 0 name) none (keep entries 1 body)
  | .classLiteral name (some _) body =>
    .classLiteral (keep entries 0 name) entries[1]?.join (keep entries 2 body)
  | .classDefinition literal => .classDefinition (keep entries 0 literal)
  | .ifStatement test consequent none =>
    .ifStatement (keep entries 0 test) (keep entries 1 consequent) none
  | .ifStatement test consequent (some _) =>
    .ifStatement (keep entries 0 test) (keep entries 1 consequent) entries[2]?.join
  | .whileStatement test consequent =>
    .whileStatement (keep entries 0 test) (keep entries 1 consequent)

def map (f : α → β) : Form α → Form β
  | .leaf kind value => .leaf kind value
  | .group heading items => .group heading (items.map f)
  | .unary operator operand => .unary (f operator) (f operand)
  | .binary operator left right => .binary (f operator) (f left) (f right)
  | .comparison operator left right => .comparison (f operator) (f left) (f right)
  | .variableDeclaration identifier => .variableDeclaration (f identifier)
  | .variableInitialisation identifier expression =>
    .variableInitialisation (f identifier) (f expression)
  | .variableAssignment target value => .variableAssignment (f target) (f value)
  | .arrayIndexWrite array index value => .arrayIndexWrite (f array) (f index) (f value)
  | .call callee arguments => .call (f callee) (f arguments)
  | .member object property => .member (f object) (f property)
  | .functionLiteral name parameters body => .functionLiteral (name.map f) (f parameters) (f body)
  | .functionDefinition function => .functionDefinition (f function)
  | .classLiteral name constructor body => .classLiteral (f name) (constructor.map f) (f body)
  | .classDefinition literal => .classDefinition (f literal)
  | .ifStatement test consequent alternate =>
    .ifStatement (f test) (f consequent) (alternate.map f)
  | .whileStatement test consequent => .whileStatement (f test) (f consequent)

/-- The form with `f` applied to every child, if `f` yields something for each. -/
def traverse? (f : α → Option β) : Form α → Option (Form β)
  | .leaf kind value => some (.leaf kind value)
  | .group heading items => return .group heading (← items.mapM f)
  | .unary operator operand => return .unary (← f operator) (← f operand)
  | .binary operator left right => return .binary (← f operator) (← f left) (← f right)
  | .comparison operator left right => return .comparison (← f operator) (← f left) (← f right)
  | .variableDeclaration identifier => return .variableDeclaration (← f identifier)
  | .variableInitialisation identifier expression =>
    return .variableInitialisation (← f identifier) (← f expression)
  | .variableAssignment target value => return .variableAssignment (← f target) (← f value)
  | .arrayIndexWrite array index value =>
    return .arrayIndexWrite (← f array) (← f index) (← f value)
  | .call callee arguments => return .call (← f callee) (← f arguments)
  | .member object property => return .member (← f object) (← f property)
  | .functionLiteral name parameters body =>
    return .functionLiteral (← name.mapM f) (← f parameters) (← f body)
  | .functionDefinition function => return .functionDefinition (← f function)
  | .classLiteral name constructor body =>
    return .classLiteral (← f name) (← constructor.mapM f) (← f body)
  | .classDefinition literal => return .classDefinition (← f literal)
  | .ifStatement test consequent alternate =>
    return .ifStatement (← f test) (← f consequent) (← alternate.mapM f)
  | .whileStatement test consequent => return .whileStatement (← f test) (← f consequent)

/-- The form without its children: kind, payload, program data, and which optional fields are
filled. -/
def blank : Form α → Form Unit :=
  map fun _ => ()

def value? : Form α → Option Value
  | .leaf _ value => some value
  | _ => none

/-- The characters of a leaf's payload, if it is made of characters. -/
def word? (form : Form α) : Option String :=
  form.value?.bind Value.word?

/-- Whether the form is the keyword `word`. -/
def isKeyword (form : Form α) (word : String) : Bool :=
  form.kind == .leaf .keyword && form.word? == some word

def hasRole (form : Form α) (role : Role) : Bool :=
  form.kind.hasRole role

/-- The positional list of children of a group. -/
def items? : Form α → Option (List α)
  | .group _ items => some items
  | _ => none

/-- A group with its list changed; any other form as it is. -/
def mapItems (f : List α → List α) : Form α → Form α
  | .group heading items => .group heading (f items)
  | form => form

theorem kind_map (f : α → β) (form : Form α) : (form.map f).kind = form.kind := by
  cases form <;> rfl

theorem children_map (f : α → β) (form : Form α) :
    (form.map f).children = form.children.map f := by
  cases form with
  | functionLiteral name parameters body => cases name <;> rfl
  | classLiteral name constructor body => cases constructor <;> rfl
  | ifStatement test consequent alternate => cases alternate <;> rfl
  | _ => rfl

theorem kind_refill (form : Form α) (entries : List (Option α)) :
    (form.refill entries).kind = form.kind := by
  cases form with
  | functionLiteral name parameters body => cases name <;> rfl
  | classLiteral name constructor body => cases constructor <;> rfl
  | ifStatement test consequent alternate => cases alternate <;> rfl
  | _ => rfl

/-- Writing back the children that were read changes nothing. -/
theorem refill_children (form : Form α) : form.refill (form.children.map some) = form := by
  cases form with
  | group heading items =>
    simp [refill, children, List.take_of_length_le, List.filterMap_map]
  | functionLiteral name parameters body => cases name <;> rfl
  | classLiteral name constructor body => cases constructor <;> rfl
  | ifStatement test consequent alternate => cases alternate <;> rfl
  | _ => rfl

end Form

end AstPromotion
