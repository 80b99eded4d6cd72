import AstPromotion.Form

/-! # Rewrite rules

A rule is data: the kinds of subject it takes and, for each shape of their
children, one test per child and what to do. Matching reads nodes through a
lookup and plans an edit, so one definition serves arenas and trees. A catalogue
is ordered, and the first rule that matches wins.
-/

namespace AstPromotion

/-- What a shape asks of one child. -/
inductive Test
  | any
  | kind (accepts : Kind → Bool)
  | keyword (word : String)

/-- Child positions on the way down from a rule's subject. -/
abbrev Place := List Nat

/-- What a rule does with a subject that it matches. -/
inductive Outcome
  /-- Reads a raw payload as a value; the rule does not apply where reading fails. -/
  | coerce (read : LeafKind → String → Option Value)
  /-- Puts the child at a position in the subject's place. -/
  | lift (position : Nat)
  | remove
  /-- Builds a construct whose fields are taken from the given places. -/
  | build (template : Form Place)
  /-- Builds a class literal from the children at two positions, moving the constructor out of
  the body. -/
  | buildClass (name body : Nat)

/-- One test for each child, and what happens when all of them pass. -/
structure Shape where
  children : List Test
  outcome : Outcome

/-- A named rewrite of the subjects it accepts. -/
structure Rule where
  name : String
  subject : Kind → Bool
  shapes : List Shape

/-- A matched rule's change, spelled out in nodes. -/
inductive Edit (α : Type)
  | coerce (value : Value)
  | lift (child : α)
  | remove
  /-- Builds a node, after giving the group in `relisted` a new list of children. -/
  | build (form : Form α) (relisted : Option (α × List α))
deriving DecidableEq, Repr

namespace Test

variable {α : Type}

def accepts : Test → Form α → Bool
  | any, _ => true
  | kind accepted, form => accepted form.kind
  | keyword word, form => form.isKeyword word

/-- Whether there are as many tests as children and each child passes its own. -/
def acceptEach (look : α → Form α) : List Test → List α → Bool
  | [], [] => true
  | test :: tests, child :: children =>
    test.accepts (look child) && acceptEach look tests children
  | _, _ => false

theorem length_of_acceptEach {look : α → Form α} {tests : List Test} {children : List α}
    (accepted : acceptEach look tests children = true) : tests.length = children.length := by
  induction tests generalizing children with
  | nil => cases children with
    | nil => rfl
    | cons => simp [acceptEach] at accepted
  | cons test tests ih => cases children with
    | nil => simp [acceptEach] at accepted
    | cons child children =>
      simp only [acceptEach, Bool.and_eq_true] at accepted
      simp [ih accepted.2]

def exactly (kinds : List Kind) : Test :=
  kind kinds.contains

def sign (punctuation : Punctuation) : Test :=
  exactly [.leaf (.mark (.punctuation punctuation))]

def operator (operator : Operator) : Test :=
  exactly [.leaf (.mark (.operator operator))]

def role (role : Role) : Test :=
  kind (·.hasRole role)

def identifier : Test :=
  exactly [.leaf (.literal .identifier)]

def operand : Test :=
  kind Kind.isOperand

end Test

section Planning

variable {α : Type} (look : α → Form α)

/-- The node at a place below the subject. -/
def descend (subject : α) : Place → Option α
  | [] => some subject
  | position :: place => (look subject).children[position]?.bind fun child => descend child place

/-- Whether a node is a function literal named `word`. -/
def isFunctionNamed (word : String) (function : α) : Bool :=
  match look function with
  | .functionLiteral (some name) _ _ => (look name).word? == some word
  | _ => false

/-- The constructor that a statement of a class body is or defines. -/
def constructorOf? (statement : α) : Option α :=
  let function? := match look statement with
    | .functionDefinition function => some function
    | .functionLiteral .. => some statement
    | _ => none
  function?.filter (isFunctionNamed look "constructor")

/-- The first constructor among the statements of a class body, and the other statements. -/
def takeConstructor? : List α → Option (α × List α)
  | [] => none
  | statement :: rest =>
    match constructorOf? look statement with
    | some function => some (function, rest)
    | none => (takeConstructor? rest).map fun (function, others) => (function, statement :: others)

/-- The class literal of a name and a body. A constructor leaves the body for its own field. -/
def planClass (name body : α) : Edit α :=
  match takeConstructor? look (look body).children with
  | some (function, others) =>
    .build (.classLiteral name (some function) body) (some (body, others))
  | none => .build (.classLiteral name none body) none

namespace Outcome

/-- What the outcome amounts to at a subject whose children were accepted. -/
def plan? (outcome : Outcome) (subject : α) : Option (Edit α) :=
  match outcome with
  | coerce read =>
    match look subject with
    | .leaf kind (.raw text) => (read kind text).map .coerce
    | _ => none
  | lift position => (look subject).children[position]?.map .lift
  | remove => some .remove
  | build template => (template.traverse? (descend look subject)).map (.build · none)
  | buildClass name body => do
    return planClass look (← (look subject).children[name]?) (← (look subject).children[body]?)

end Outcome

def Shape.plan? (shape : Shape) (subject : α) : Option (Edit α) :=
  if Test.acceptEach look shape.children (look subject).children then
    shape.outcome.plan? look subject
  else none

/-- The change a rule makes at a subject, if it matches there. -/
def Rule.plan? (rule : Rule) (subject : α) : Option (Edit α) :=
  if rule.subject (look subject).kind then rule.shapes.findSome? (·.plan? look subject) else none

end Planning

/-- Rules in order of precedence. -/
abbrev Catalogue := List Rule

/-- The first rule that matches a subject, by name, and its change. -/
def Catalogue.plan? {α : Type} (rules : Catalogue) (look : α → Form α) (subject : α) :
    Option (String × Edit α) :=
  rules.findSome? fun rule => (rule.plan? look subject).map fun edit => (rule.name, edit)

end AstPromotion
