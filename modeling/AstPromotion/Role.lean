import AstPromotion.Kind

/-! # Roles

Roles classify kinds and may overlap; the containers play none. Rules and the
final check ask for roles wherever more than one kind will do.
-/

namespace AstPromotion

/-- A classification of kinds. -/
inductive Role
  | terminal
  | literalValue
  | keyword
  | punctuation
  | operator
  | arithmeticOperator
  | comparisonOperator
  | primitive
  | expression
  | statement
deriving DecidableEq, Repr

namespace Role

/-- Every role, from the leaves' to the statements'. -/
def all : List Role :=
  [.terminal, .literalValue, .keyword, .punctuation, .operator, .arithmeticOperator,
    .comparisonOperator, .primitive, .expression, .statement]

def name : Role → String
  | .terminal => "Terminal"
  | .literalValue => "LiteralValue"
  | .keyword => "Keyword"
  | .punctuation => "Punctuation"
  | .operator => "Operator"
  | .arithmeticOperator => "ArithmeticOperator"
  | .comparisonOperator => "ComparisonOperator"
  | .primitive => "Primitive"
  | .expression => "Expression"
  | .statement => "Statement"

/-- The role of exactly that name. -/
def ofName? (name : String) : Option Role :=
  all.find? (·.name == name)

end Role

def Operator.isArithmetic : Operator → Bool
  | .plus | .minus | .times | .divide | .modulo | .power => true
  | _ => false

def Operator.isComparison : Operator → Bool
  | .smaller | .greater | .smallerEqual | .greaterEqual | .equal | .notEqual => true
  | _ => false

/-- Constructs that yield a value. -/
def Construct.isExpression : Construct → Bool
  | .unaryExpression | .binaryExpression | .comparisonExpression | .variableAssignment
  | .arrayIndexWrite | .callExpression | .memberExpression | .functionLiteral
  | .classLiteral => true
  | _ => false

namespace Kind

/-- Whether the kind plays the role. -/
def hasRole : Kind → Role → Bool
  | .leaf _, .terminal => true
  | .leaf (.literal _), .literalValue => true
  | .leaf .keyword, .keyword => true
  | .leaf (.mark (.punctuation _)), .punctuation => true
  | .leaf (.mark (.operator _)), .operator => true
  | .leaf (.mark (.operator sign)), .arithmeticOperator => sign.isArithmetic
  | .leaf (.mark (.operator sign)), .comparisonOperator => sign.isComparison
  | .group (.provisional _), .primitive => true
  | .group (.provisional .expression), .expression => true
  | .group (.provisional .memberAccess), .expression => true
  | .group (.provisional .statement), .statement => true
  | .group (.provisional .ifStatement), .statement => true
  | .construct built, .expression => built.isExpression
  | .construct built, .statement => !built.isExpression
  | _, _ => false

/-- The roles a kind plays, in the order of `Role.all`. -/
def roles (kind : Kind) : List Role :=
  Role.all.filter kind.hasRole

/-- Kinds that may stand where a value is expected. -/
def isOperand (kind : Kind) : Bool :=
  kind.hasRole .expression || kind.hasRole .literalValue

end Kind

end AstPromotion
