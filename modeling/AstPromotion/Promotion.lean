import AstPromotion.Rule

/-! # Promotion rules

Each rule recognizes a provisional grouping by the number and kinds of its
children and builds the construct they spell. Rules that name no kind take any
provisional grouping; nothing else is ever rewritten, so no rule applies to what
another has built.
-/

namespace AstPromotion.Promotion

open Test (sign operator identifier operand)

def isProvisional (kind : Kind) : Bool :=
  kind.hasRole .primitive

def isGrouping (groupings : List Provisional) : Kind → Bool :=
  (groupings.map fun grouping => Kind.group (.provisional grouping)).contains

/-- A block in braces. -/
def braced : List Test :=
  [sign .leftCurly, .exactly [.group .block], sign .rightCurly]

/-- A keyword, a test in parentheses and a block in braces. -/
def guarded (word : String) : List Test :=
  [.keyword word, sign .leftParen, operand, sign .rightParen] ++ braced

/-- A parameter list in parentheses and a body in braces. -/
def function : List Test :=
  [sign .leftParen, .exactly [.group .argumentList], sign .rightParen] ++ braced

def unaryExpression : Rule where
  name := "unary expression"
  subject := isProvisional
  shapes := [{
    children :=
      [.exactly ([Operator.minus, .plus, .negation].map fun sign => .leaf (.mark (.operator sign))),
        operand]
    outcome := .build (.unary [0] [1]) }]

def binaryExpression : Rule where
  name := "binary expression"
  subject := isProvisional
  shapes := [⟨[operand, .role .arithmeticOperator, operand], .build (.binary [1] [0] [2])⟩]

def comparisonExpression : Rule where
  name := "comparison expression"
  subject := isProvisional
  shapes := [⟨[operand, .role .comparisonOperator, operand], .build (.comparison [1] [0] [2])⟩]

def variableAssignment : Rule where
  name := "variable assignment"
  subject := isProvisional
  shapes := [{
    children :=
      [.exactly [.leaf (.literal .identifier), .construct .memberExpression], operator .assignment,
        operand]
    outcome := .build (.variableAssignment [0] [2]) }]

/-- The call that is assigned to gives up its callee as the array and its arguments as the
index. -/
def arrayIndexWrite : Rule where
  name := "array index write"
  subject := isProvisional
  shapes := [{
    children := [.exactly [.construct .callExpression], operator .assignment, operand]
    outcome := .build (.arrayIndexWrite [0, 0] [0, 1] [2]) }]

def variableDeclaration : Rule where
  name := "variable declaration"
  subject := isProvisional
  shapes := [⟨[.keyword "let", identifier], .build (.variableDeclaration [1])⟩]

def variableInitialisation : Rule where
  name := "variable initialisation"
  subject := isProvisional
  shapes := [{
    children := [.keyword "let", identifier, operator .assignment, operand]
    outcome := .build (.variableInitialisation [1] [3]) }]

def callExpression : Rule where
  name := "call expression"
  subject := isProvisional
  shapes := [{
    children := [.any, sign .leftParen, .exactly [.group .expressionList], sign .rightParen]
    outcome := .build (.call [0] [2]) }]

def memberExpression : Rule where
  name := "member expression"
  subject := isProvisional
  shapes := [⟨[operand, sign .dot, identifier], .build (.member [0] [2])⟩]

def classLiteral : Rule where
  name := "class literal"
  subject := isProvisional
  shapes := [⟨[.keyword "class", identifier] ++ braced, .buildClass 1 3⟩]

/-- With a name or without. -/
def functionLiteral : Rule where
  name := "function literal"
  subject := isProvisional
  shapes := [
    ⟨[.keyword "func", identifier] ++ function, .build (.functionLiteral (some [1]) [3] [6])⟩,
    ⟨[.keyword "func"] ++ function, .build (.functionLiteral none [2] [5])⟩]

def unwrapIfStatement : Rule where
  name := "unwrap if statement"
  subject := isGrouping [.statement]
  shapes := [⟨[.exactly [.group (.provisional .ifStatement), .construct .ifStatement]], .lift 0⟩]

def ifStatement : Rule where
  name := "if statement"
  subject := isGrouping [.ifStatement]
  shapes := [⟨guarded "if", .build (.ifStatement [2] [5] none)⟩]

def ifElseStatement : Rule where
  name := "if else statement"
  subject := isGrouping [.ifStatement]
  shapes := [⟨guarded "if" ++ [.keyword "else"] ++ braced, .build (.ifStatement [2] [5] (some [9]))⟩]

/-- The alternate is itself an if statement. -/
def elseIfChain : Rule where
  name := "elseif chain"
  subject := isGrouping [.ifStatement]
  shapes := [{
    children := guarded "if" ++ [.keyword "else", .exactly [.construct .ifStatement]]
    outcome := .build (.ifStatement [2] [5] (some [8])) }]

def whileStatement : Rule where
  name := "while statement"
  subject := isGrouping [.statement]
  shapes := [⟨guarded "while", .build (.whileStatement [2] [5])⟩]

def functionDefinition : Rule where
  name := "function definition"
  subject := isGrouping [.statement]
  shapes := [⟨[.exactly [.construct .functionLiteral]], .build (.functionDefinition [0])⟩]

def classDefinition : Rule where
  name := "class definition"
  subject := isGrouping [.statement]
  shapes := [⟨[.exactly [.construct .classLiteral]], .build (.classDefinition [0])⟩]

/-- Expressions, statements and literals that are no longer provisional. -/
def isSettled (kind : Kind) : Bool :=
  (kind.hasRole .expression || kind.hasRole .statement || kind.hasRole .literalValue) &&
    !kind.hasRole .primitive

def unwrapSettled : Rule where
  name := "unwrap settled statement"
  subject := isGrouping [.statement, .temporary]
  shapes := [⟨[.kind isSettled], .lift 0⟩]

def dropEmptyStatement : Rule where
  name := "drop empty statement"
  subject := isGrouping [.statement]
  shapes := [⟨[], .remove⟩]

/-- The rules in order of precedence. -/
def catalogue : Catalogue :=
  [unaryExpression, binaryExpression, comparisonExpression, variableAssignment, arrayIndexWrite,
    variableDeclaration, variableInitialisation, callExpression, memberExpression, classLiteral,
    functionLiteral, unwrapIfStatement, ifStatement, ifElseStatement, elseIfChain, whileStatement,
    functionDefinition, classDefinition, unwrapSettled, dropEmptyStatement]

end AstPromotion.Promotion
