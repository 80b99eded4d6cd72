import AstPromotion.Proofs.Normalization.Literals
import AstPromotion.Proofs.Term

/-! # The surface language

The programs that sketches are meant to spell, as a syntax of their own. Every
phrase has a sketch, which is how it is handed over, and a tree, which is what it
means. Neither definition looks at a rule.
-/

namespace AstPromotion.Language

open Term (node)

/-! ## Words, numbers and texts -/

/-- A word that is not reserved. -/
structure Name where
  text : String
  isWord : IsWord text.toList
  unreserved : Token.wordKind text = .literal .identifier

structure Numeral where
  text : String
  isNumeral : IsNumeral text.toList

/-- A text without quotes in it. -/
structure Quotation where
  text : String
  unquoted : '"' ∉ text.toList

/-- A bare leaf. -/
inductive Atom
  | number (numeral : Numeral)
  | name (identifier : Name)
  | string (quotation : Quotation)
  | boolean (value : Bool)

def Name.token (name : Name) : Token :=
  .word name.text

/-- The number that a numeral is read as. -/
def Numeral.value (numeral : Numeral) : Binary64 :=
  (Binary64.ofNumeral? numeral.text).get <| by
    obtain ⟨number, hnumber⟩ := numeral.isNumeral.exists_ofNumeral
    rw [String.ofList_toList] at hnumber
    rw [hnumber]
    rfl

namespace Atom

def token : Atom → Token
  | number numeral => .number numeral.text
  | name identifier => identifier.token
  | string quotation => .string quotation.text
  | boolean true => .word "true"
  | boolean false => .word "false"

def literal : Atom → Literal
  | number _ => .numeric
  | name _ => .identifier
  | string _ => .string
  | boolean _ => .boolean

def value : Atom → Value
  | number numeral => .number numeral.value
  | name identifier => .name identifier.text
  | string quotation => .text quotation.text
  | boolean value => .boolean value

end Atom

/-! ## Phrases -/

/-- Minus, plus or negation. -/
abbrev Sign := {sign : Operator // sign ∈ [.minus, .plus, .negation]}

abbrev Arithmetic := {sign : Operator // sign.isArithmetic = true}

abbrev Comparison := {sign : Operator // sign.isComparison = true}

/-- The two groupings that an access to a member is written in. -/
inductive Dotted
  | memberAccess
  | expression

mutual

inductive Expression
  | atom (atom : Atom)
  | compound (compound : Compound)

/-- An expression that is not a bare leaf. -/
inductive Compound
  | unary (sign : Sign) (operand : Expression)
  | arithmetic (left : Expression) (sign : Arithmetic) (right : Expression)
  | comparison (left : Expression) (sign : Comparison) (right : Expression)
  | parenthesized (inner : Compound)
  | access (access : Access)
  | function (name : Option Name) (parameters : List Name) (body : List Statement)

/-- An expression that can be assigned to without being a name. -/
inductive Access
  | call (callee : Expression) (arguments : List Expression)
  | member (grouping : Dotted) (object : Expression) (property : Name)

inductive Statement
  | empty
  | expression (expression : Expression)
  | declaration (name : Name)
  | initialisation (name : Name) (value : Expression)
  | assignment (name : Name) (value : Expression)
  | write (target : Access) (value : Expression)
  | conditional (conditional : Conditional)
  | loop (test : Expression) (body : List Statement)
  | classDefinition (name : Name) (body : List Statement)

inductive Conditional
  | ifThen (test : Expression) (body : List Statement)
  | ifElse (test : Expression) (body alternate : List Statement)
  | elseIf (test : Expression) (body : List Statement) (alternate : Conditional)

end

/-! ## Sketches -/

section Sketches

abbrev word (text : String) : Sketch :=
  .leaf (.word text)

abbrev sign (sign : Punctuation) : Sketch :=
  .leaf (.mark (.punctuation sign))

abbrev operator (sign : Operator) : Sketch :=
  .leaf (.mark (.operator sign))

abbrev grouping (grouping : Provisional) (items : List Sketch) : Sketch :=
  .group (.provisional grouping) items

/-- Sketches in a row with commas between them. -/
def separated (items : List Sketch) : List Sketch :=
  items.intersperse (sign .comma)

def braced (body : List Sketch) : List Sketch :=
  [sign .leftCurly, .group .block body, sign .rightCurly]

def guarded (keyword : String) (test : Sketch) (body : List Sketch) : List Sketch :=
  [word keyword, sign .leftParen, test, sign .rightParen] ++ braced body

def Name.sketch (name : Name) : Sketch :=
  .leaf name.token

def Dotted.grouping : Dotted → Provisional
  | memberAccess => .memberAccess
  | expression => .expression

mutual

def Expression.sketch : Expression → Sketch
  | .atom atom => .leaf atom.token
  | .compound compound => compound.sketch

def Compound.sketch : Compound → Sketch
  | .unary sign operand => grouping .expression [operator sign, operand.sketch]
  | .arithmetic left sign right =>
    grouping .expression [left.sketch, operator sign, right.sketch]
  | .comparison left sign right =>
    grouping .expression [left.sketch, operator sign, right.sketch]
  | .parenthesized inner =>
    grouping .expression [sign .leftParen, inner.sketch, sign .rightParen]
  | .access access => access.sketch
  | .function name parameters body =>
    grouping .expression <|
      word "func" :: name.toList.map Name.sketch ++
        [sign .leftParen, .group .argumentList (separated (parameters.map Name.sketch)),
          sign .rightParen] ++
        braced (sketchBody body)

def Access.sketch : Access → Sketch
  | .call callee arguments =>
    grouping .expression
      [callee.sketch, sign .leftParen, .group .expressionList (separated (sketchEach arguments)),
        sign .rightParen]
  | .member dotted object property =>
    grouping dotted.grouping [object.sketch, sign .dot, property.sketch]

def Statement.sketch : Statement → Sketch
  | .empty => grouping .statement [sign .semicolon]
  | .expression expression => grouping .statement [expression.sketch, sign .semicolon]
  | .declaration name => grouping .statement [word "let", name.sketch, sign .semicolon]
  | .initialisation name value =>
    grouping .statement
      [word "let", name.sketch, operator .assignment, value.sketch, sign .semicolon]
  | .assignment name value =>
    grouping .statement [name.sketch, operator .assignment, value.sketch, sign .semicolon]
  | .write target value =>
    grouping .statement [target.sketch, operator .assignment, value.sketch, sign .semicolon]
  | .conditional conditional => grouping .statement [conditional.sketch]
  | .loop test body => grouping .statement (guarded "while" test.sketch (sketchBody body))
  | .classDefinition name body =>
    grouping .statement
      [grouping .temporary ([word "class", name.sketch] ++ braced (sketchBody body))]

def Conditional.sketch : Conditional → Sketch
  | .ifThen test body => grouping .ifStatement (guarded "if" test.sketch (sketchBody body))
  | .ifElse test body alternate =>
    grouping .ifStatement <|
      guarded "if" test.sketch (sketchBody body) ++ [word "else"] ++ braced (sketchBody alternate)
  | .elseIf test body alternate =>
    grouping .ifStatement <|
      guarded "if" test.sketch (sketchBody body) ++ [word "else", alternate.sketch]

def sketchEach : List Expression → List Sketch
  | [] => []
  | expression :: rest => expression.sketch :: sketchEach rest

def sketchBody : List Statement → List Sketch
  | [] => []
  | statement :: rest => statement.sketch :: sketchBody rest

end

end Sketches

/-! ## Trees -/

section Trees

abbrev leaf (kind : LeafKind) (value : Value) : Term Unit :=
  node () (.leaf kind value)

/-- The operator of an expression still bears its spelling. -/
def operatorLeaf (sign : Operator) : Term Unit :=
  leaf (.mark (.operator sign)) (.raw sign.spelling)

def Name.ast (name : Name) : Term Unit :=
  leaf (.literal .identifier) (.name name.text)

def Atom.ast (atom : Atom) : Term Unit :=
  leaf (.literal atom.literal) atom.value

def list (heading : Heading) (items : List (Term Unit)) : Term Unit :=
  node () (.group heading items)

/-- An expression for a statement: a function literal makes a definition. -/
def statementTerm (expression : Term Unit) : Term Unit :=
  match expression.form with
  | .functionLiteral .. => node () (.functionDefinition expression)
  | _ => expression

/-- The constructor that a statement defines: a function of that name. -/
def definedConstructor? (statement : Term Unit) : Option (Term Unit) :=
  match statement.form with
  | .functionDefinition function =>
    match function.form with
    | .functionLiteral (some name) _ _ =>
      if name.form.word? = some "constructor" then some function else none
    | _ => none
  | _ => none

/-- A class: the first constructor among its statements is kept apart from the others. -/
def classLiteral (name : Term Unit) (statements : List (Term Unit)) : Term Unit :=
  node () <| .classLiteral name (statements.findSome? definedConstructor?)
    (list .block (statements.eraseP fun statement => (definedConstructor? statement).isSome))

mutual

def Expression.ast : Expression → Term Unit
  | .atom atom => atom.ast
  | .compound compound => compound.ast

def Compound.ast : Compound → Term Unit
  | .unary sign operand => node () (.unary (operatorLeaf sign) operand.ast)
  | .arithmetic left sign right => node () (.binary (operatorLeaf sign) left.ast right.ast)
  | .comparison left sign right => node () (.comparison (operatorLeaf sign) left.ast right.ast)
  | .parenthesized inner => inner.ast
  | .access access => access.ast
  | .function name parameters body =>
    node () <| .functionLiteral (name.map Name.ast) (list .argumentList (parameters.map Name.ast))
      (list .block (astBody body))

def Access.ast : Access → Term Unit
  | .call callee arguments =>
    node () (.call callee.ast (list .expressionList (astEach arguments)))
  | .member _ object property => node () (.member object.ast property.ast)

/-- The trees that a statement leaves, of which there is at most one. -/
def Statement.asts : Statement → List (Term Unit)
  | .empty => []
  | .expression expression => [statementTerm expression.ast]
  | .declaration name => [node () (.variableDeclaration name.ast)]
  | .initialisation name value => [node () (.variableInitialisation name.ast value.ast)]
  | .assignment name value => [node () (.variableAssignment name.ast value.ast)]
  | .write (.call callee arguments) value =>
    [node () (.arrayIndexWrite callee.ast (list .expressionList (astEach arguments)) value.ast)]
  | .write (.member _ object property) value =>
    [node () (.variableAssignment (node () (.member object.ast property.ast)) value.ast)]
  | .conditional conditional => [conditional.ast]
  | .loop test body => [node () (.whileStatement test.ast (list .block (astBody body)))]
  | .classDefinition name body =>
    [node () (.classDefinition (classLiteral name.ast (astBody body)))]

def Conditional.ast : Conditional → Term Unit
  | .ifThen test body => node () (.ifStatement test.ast (list .block (astBody body)) none)
  | .ifElse test body alternate =>
    node () <| .ifStatement test.ast (list .block (astBody body))
      (some (list .block (astBody alternate)))
  | .elseIf test body alternate =>
    node () (.ifStatement test.ast (list .block (astBody body)) (some alternate.ast))

def astEach : List Expression → List (Term Unit)
  | [] => []
  | expression :: rest => expression.ast :: astEach rest

def astBody : List Statement → List (Term Unit)
  | [] => []
  | statement :: rest => statement.asts ++ astBody rest

end

end Trees

/-! ## Programs -/

structure Program where
  body : List Statement

def Program.sketch (program : Program) : Sketch :=
  .group .program (sketchBody program.body)

/-- The tree of a program in a file. -/
def Program.ast (file : String) (program : Program) : Term Unit :=
  list (.program file true) (astBody program.body)

end AstPromotion.Language
