/-! # Kinds of nodes

Every node has one kind. Kinds fall into three families that no node ever
leaves: leaves, groups that list their children by position, and constructs
that name them.
-/

namespace AstPromotion

/-- Leaves that stand for a value. -/
inductive Literal
  | numeric
  | string
  | boolean
  | identifier
deriving DecidableEq, Repr

/-- Brackets, separators and the dot. -/
inductive Punctuation
  | leftParen
  | rightParen
  | leftCurly
  | rightCurly
  | leftBracket
  | rightBracket
  | comma
  | semicolon
  | dot
deriving DecidableEq, Repr

/-- Operator marks: six of arithmetic, six of comparison, negation and assignment. -/
inductive Operator
  | plus
  | minus
  | times
  | divide
  | modulo
  | power
  | smaller
  | greater
  | smallerEqual
  | greaterEqual
  | equal
  | notEqual
  | negation
  | assignment
deriving DecidableEq, Repr

/-- A token written with signs rather than letters. -/
inductive Mark
  | punctuation (sign : Punctuation)
  | operator (sign : Operator)
deriving DecidableEq, Repr

/-- What a leaf is. -/
inductive LeafKind
  | literal (literal : Literal)
  | keyword
  | mark (sign : Mark)
deriving DecidableEq, Repr

/-- Groupings that only promotion can turn into something the next stage accepts. -/
inductive Provisional
  | temporary
  | expression
  | statement
  | ifStatement
  | memberAccess
deriving DecidableEq, Repr

/-- Nodes whose children are a list: the provisional groupings and the containers. -/
inductive GroupKind
  | provisional (grouping : Provisional)
  | block
  | program
  | argumentList
  | expressionList
deriving DecidableEq, Repr

/-- Typed nodes whose children stand in named fields. -/
inductive Construct
  | unaryExpression
  | binaryExpression
  | comparisonExpression
  | variableDeclaration
  | variableInitialisation
  | variableAssignment
  | arrayIndexWrite
  | callExpression
  | memberExpression
  | functionLiteral
  | functionDefinition
  | classLiteral
  | classDefinition
  | ifStatement
  | whileStatement
deriving DecidableEq, Repr

/-- The kind of a node. -/
inductive Kind
  | leaf (kind : LeafKind)
  | group (kind : GroupKind)
  | construct (kind : Construct)
deriving DecidableEq, Repr

/-! ## Enumerations -/

def Literal.all : List Literal := [.numeric, .string, .boolean, .identifier]

def Punctuation.all : List Punctuation :=
  [.leftParen, .rightParen, .leftCurly, .rightCurly, .leftBracket, .rightBracket, .comma,
    .semicolon, .dot]

def Operator.all : List Operator :=
  [.plus, .minus, .times, .divide, .modulo, .power, .smaller, .greater, .smallerEqual,
    .greaterEqual, .equal, .notEqual, .negation, .assignment]

def Mark.all : List Mark :=
  Punctuation.all.map .punctuation ++ Operator.all.map .operator

def LeafKind.all : List LeafKind :=
  Literal.all.map .literal ++ [.keyword] ++ Mark.all.map .mark

def Provisional.all : List Provisional :=
  [.temporary, .expression, .statement, .ifStatement, .memberAccess]

def GroupKind.all : List GroupKind :=
  Provisional.all.map .provisional ++ [.block, .program, .argumentList, .expressionList]

def Construct.all : List Construct :=
  [.unaryExpression, .binaryExpression, .comparisonExpression, .variableDeclaration,
    .variableInitialisation, .variableAssignment, .arrayIndexWrite, .callExpression,
    .memberExpression, .functionLiteral, .functionDefinition, .classLiteral, .classDefinition,
    .ifStatement, .whileStatement]

/-- All kinds: leaves, then groups, then constructs. -/
def Kind.all : List Kind :=
  LeafKind.all.map .leaf ++ GroupKind.all.map .group ++ Construct.all.map .construct

theorem Kind.mem_all (kind : Kind) : kind ∈ Kind.all := by
  rcases kind with (literal | _ | sign | sign) | (grouping | _ | _ | _ | _) | construct
  · cases literal <;> decide
  · decide
  · cases sign <;> decide
  · cases sign <;> decide
  · cases grouping <;> decide
  · decide
  · decide
  · decide
  · decide
  · cases construct <;> decide

/-- A property of kinds is decided by trying every kind. -/
instance (property : Kind → Prop) [DecidablePred property] : Decidable (∀ kind, property kind) :=
  decidable_of_iff (∀ kind ∈ Kind.all, property kind)
    ⟨fun holds kind => holds kind kind.mem_all, fun holds kind _ => holds kind⟩

/-! ## Names and spellings -/

def Literal.name : Literal → String
  | .numeric => "NumericLiteral"
  | .string => "StringLiteral"
  | .boolean => "BooleanLiteral"
  | .identifier => "IdentifierLiteral"

def Punctuation.name : Punctuation → String
  | .leftParen => "LeftParen"
  | .rightParen => "RightParen"
  | .leftCurly => "LeftCurly"
  | .rightCurly => "RightCurly"
  | .leftBracket => "LeftBracket"
  | .rightBracket => "RightBracket"
  | .comma => "Comma"
  | .semicolon => "Semicolon"
  | .dot => "Dot"

def Operator.name : Operator → String
  | .plus => "PlusOperator"
  | .minus => "MinusOperator"
  | .times => "MultOperator"
  | .divide => "DivdOperator"
  | .modulo => "ModOperator"
  | .power => "PowOperator"
  | .smaller => "SmallerOperator"
  | .greater => "GreaterOperator"
  | .smallerEqual => "SmallerEqualOperator"
  | .greaterEqual => "GreaterEqualOperator"
  | .equal => "EqualOperator"
  | .notEqual => "NotEqualOperator"
  | .negation => "NotOperator"
  | .assignment => "AssignmentOperator"

def Mark.name : Mark → String
  | .punctuation sign => sign.name
  | .operator sign => sign.name

def LeafKind.name : LeafKind → String
  | .literal shown => shown.name
  | .keyword => "KeywordLiteral"
  | .mark shown => shown.name

def Provisional.name : Provisional → String
  | .temporary => "Temporary"
  | .expression => "Expression"
  | .statement => "Statement"
  | .ifStatement => "IfStatementPrimitive"
  | .memberAccess => "MemberAccess"

def GroupKind.name : GroupKind → String
  | .provisional grouping => grouping.name
  | .block => "Block"
  | .program => "Program"
  | .argumentList => "ArgumentList"
  | .expressionList => "ExpressionList"

def Construct.name : Construct → String
  | .unaryExpression => "UnaryExpression"
  | .binaryExpression => "BinaryExpression"
  | .comparisonExpression => "ComparisonExpression"
  | .variableDeclaration => "VariableDeclaration"
  | .variableInitialisation => "VariableInitialisation"
  | .variableAssignment => "VariableAssignment"
  | .arrayIndexWrite => "ArrayIndexWrite"
  | .callExpression => "CallExpression"
  | .memberExpression => "MemberExpression"
  | .functionLiteral => "FunctionLiteral"
  | .functionDefinition => "FunctionDefinition"
  | .classLiteral => "ClassLiteral"
  | .classDefinition => "ClassDefinition"
  | .ifStatement => "IfStatement"
  | .whileStatement => "WhileStatement"

/-- The name a kind is shown by. -/
def Kind.name : Kind → String
  | .leaf shown => shown.name
  | .group shown => shown.name
  | .construct shown => shown.name

/-- The kind of exactly that name; letter case matters. -/
def Kind.ofName? (name : String) : Option Kind :=
  Kind.all.find? (·.name == name)

theorem Kind.name_of_ofName? {name : String} {kind : Kind} (found : Kind.ofName? name = some kind) :
    kind.name = name := by
  simpa using List.find?_some found

def Punctuation.spelling : Punctuation → String
  | .leftParen => "("
  | .rightParen => ")"
  | .leftCurly => "\x7b"
  | .rightCurly => "\x7d"
  | .leftBracket => "["
  | .rightBracket => "]"
  | .comma => ","
  | .semicolon => ";"
  | .dot => "."

def Operator.spelling : Operator → String
  | .plus => "+"
  | .minus => "-"
  | .times => "*"
  | .divide => "/"
  | .modulo => "%"
  | .power => "^"
  | .smaller => "<"
  | .greater => ">"
  | .smallerEqual => "<="
  | .greaterEqual => ">="
  | .equal => "=="
  | .notEqual => "!="
  | .negation => "!"
  | .assignment => "="

/-- How a mark is written. -/
def Mark.spelling : Mark → String
  | .punctuation sign => sign.spelling
  | .operator sign => sign.spelling

/-- The mark written so. -/
def Mark.ofSpelling? (spelling : String) : Option Mark :=
  Mark.all.find? (·.spelling == spelling)

end AstPromotion
