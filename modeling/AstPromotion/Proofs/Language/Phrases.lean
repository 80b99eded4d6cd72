import AstPromotion.Proofs.Language.Rows

/-! # What phrases become

The sketch of every phrase is a row that becomes the phrase's tree, by induction
on the phrase. What its parts become says which step promotion takes at it.
-/

namespace AstPromotion.Language

open Normalization (leftParenKind isSeparator readValue)
open Promotion (Step)
open Term (node remaining)

variable {file : String}

/-! ## Leaves -/

/-- Brackets bear their spelling, like operators. -/
def signLeaf (sign : Punctuation) : Term Unit :=
  leaf (.mark (.punctuation sign)) (.raw sign.spelling)

def keywordLeaf (word : String) : Term Unit :=
  leaf .keyword (.name word)

theorem Row.sign (sign : Punctuation)
    (hkept : isSeparator (.leaf (.mark (.punctuation sign))) = false) :
    Row file [Language.sign sign] [signLeaf sign] [signLeaf sign] :=
  Row.mark hkept

theorem Row.operator (sign : Operator) :
    Row file [Language.operator sign] [operatorLeaf sign] [operatorLeaf sign] := by
  refine Row.mark ?_
  cases sign <;> rfl

theorem Row.semicolon : Row file [Language.sign .semicolon] [] [] :=
  Row.separator rfl

theorem Row.keyword (file word : String) (hword : word ∈ Token.keywords) :
    Row file [Language.word word] [keywordLeaf word] [keywordLeaf word] := by
  have hreserved : ∀ word ∈ Token.keywords,
      IsWord word.toList ∧ Token.wordKind word = .keyword := by decide
  obtain ⟨hproper, hkind⟩ := hreserved word hword
  have hrow : Row file [.leaf (.word word)] [leaf (Token.wordKind word) (.name word)]
      [leaf (Token.wordKind word) (.name word)] :=
    Row.read _ hproper (by rw [Token.kind, hkind]; rfl)
  rwa [hkind] at hrow

theorem isKeyword_keywordLeaf (word : String) : (keywordLeaf word).form.isKeyword word = true := by
  simp [keywordLeaf, Form.isKeyword, Form.kind, Form.word?, Form.value?, Value.word?]

theorem Name.row (name : Name) : Row file [name.sketch] [name.ast] [name.ast] := by
  have hrow : Row file [.leaf (.word name.text)] [leaf (Token.wordKind name.text) (.name name.text)]
      [leaf (Token.wordKind name.text) (.name name.text)] :=
    Row.read _ name.isWord (by rw [Token.kind, name.unreserved]; rfl)
  rwa [name.unreserved] at hrow

theorem Numeral.readValue_eq (numeral : Numeral) :
    readValue (.literal .numeric) numeral.text = some (.number numeral.value) := by
  have htrim := numeral.isNumeral.trim_eq
  rw [String.ofList_toList] at htrim
  rw [readValue, Normalization.readNumber, htrim, Numeral.value, Option.map_eq_some_iff]
  exact ⟨_, (Option.some_get _).symm, rfl⟩

theorem Quotation.readValue_eq (quotation : Quotation) :
    readValue (.literal .string) quotation.text = some (.text quotation.text) := by
  rw [readValue, Normalization.readWord, Normalization.unquote_eq quotation.unquoted]

theorem Atom.row (atom : Atom) : Row file [.leaf atom.token] [atom.ast] [atom.ast] := by
  cases atom with
  | number numeral =>
      exact Row.read (.number numeral.text) numeral.isNumeral numeral.readValue_eq
  | name identifier => exact identifier.row
  | string quotation =>
      exact Row.read (.string quotation.text) quotation.unquoted quotation.readValue_eq
  | boolean value =>
      cases value with
      | true => exact Row.read (.word "true") (by unfold Token.Proper; decide) rfl
      | false => exact Row.read (.word "false") (by unfold Token.Proper; decide) rfl

theorem row_names (file : String) (names : List Name) :
    Row file (names.map Name.sketch) (names.map Name.ast) (names.map Name.ast) := by
  induction names with
  | nil => exact Row.nil
  | cons name rest ih => exact name.row.append ih

/-! ## Trees of expressions -/

/-- Kinds of values that are left alone where they stand for a statement. -/
def isValue (kind : Kind) : Bool :=
  kind.isOperand && Promotion.isSettled kind && kind != .construct .classLiteral

theorem isOperand_of_isValue {kind : Kind} (hvalue : isValue kind = true) :
    kind.isOperand = true := by
  revert kind
  decide

mutual

theorem Expression.isValue_ast : ∀ expression : Expression, isValue expression.ast.kind = true
  | .atom atom => by cases atom <;> rfl
  | .compound compound => compound.isValue_ast

theorem Compound.isValue_ast : ∀ compound : Compound, isValue compound.ast.kind = true
  | .unary .. | .arithmetic .. | .comparison .. | .function .. => rfl
  | .parenthesized inner => inner.isValue_ast
  | .access (.call ..) | .access (.member ..) => rfl

end

theorem Expression.isOperand_ast (expression : Expression) :
    expression.ast.kind.isOperand = true :=
  isOperand_of_isValue expression.isValue_ast

theorem Conditional.kind_ast (conditional : Conditional) :
    conditional.ast.kind = .construct .ifStatement := by
  cases conditional <;> rfl

/-- A function literal never stands for a statement: it makes a definition. -/
theorem kind_statementTerm (expression : Term Unit) :
    (statementTerm expression).kind ≠ .construct .functionLiteral := by
  unfold statementTerm
  split
  next => exact fun heq => nomatch heq
  next hform =>
      rw [Term.kind]
      intro hkind
      cases hexpression : expression.form with
      | functionLiteral name parameters body => exact hform _ _ _ hexpression
      | _ =>
          rw [hexpression] at hkind
          cases hkind

theorem Statement.kind_of_mem_asts {statement : Statement} {tree : Term Unit}
    (htree : tree ∈ statement.asts) : tree.kind ≠ .construct .functionLiteral := by
  cases statement with
  | empty => nomatch htree
  | expression expression =>
      rw [List.mem_singleton.mp htree]
      exact kind_statementTerm expression.ast
  | conditional conditional =>
      rw [List.mem_singleton.mp htree, conditional.kind_ast]
      exact fun heq => nomatch heq
  | write target value =>
      cases target <;> rw [List.mem_singleton.mp htree] <;> exact fun heq => nomatch heq
  | _ =>
      rw [List.mem_singleton.mp htree]
      exact fun heq => nomatch heq

theorem kind_of_mem_astBody {body : List Statement} {tree : Term Unit} (htree : tree ∈ astBody body) :
    tree.kind ≠ .construct .functionLiteral := by
  induction body with
  | nil => nomatch htree
  | cons statement rest ih =>
      rcases List.mem_append.mp htree with hstatement | hrest
      · exact statement.kind_of_mem_asts hstatement
      · exact ih hrest

/-! ## Braces -/

theorem braced_form (items : List (Term Unit)) :
    Promotion.Braced Term.form (signLeaf .leftCurly) (list .block items) (signLeaf .rightCurly) :=
  ⟨rfl, rfl, rfl⟩

theorem guarded_form (word : String) {test : Term Unit} (htest : test.kind.isOperand = true)
    (items : List (Term Unit)) :
    Promotion.Guarded Term.form word (keywordLeaf word) (signLeaf .leftParen) test
      (signLeaf .rightParen) (signLeaf .leftCurly) (list .block items) (signLeaf .rightCurly) :=
  ⟨isKeyword_keywordLeaf word, rfl, htest, rfl, braced_form items⟩

theorem parameterized_form (parameters items : List (Term Unit)) :
    Promotion.Parameterized Term.form (signLeaf .leftParen) (list .argumentList parameters)
      (signLeaf .rightParen) (signLeaf .leftCurly) (list .block items) (signLeaf .rightCurly) :=
  ⟨rfl, rfl, rfl, braced_form items⟩

/-- The terms of a block in braces. -/
def bracedTerms (items : List (Term Unit)) : List (Term Unit) :=
  [signLeaf .leftCurly, list .block items, signLeaf .rightCurly]

/-- The terms of a keyword, a test in parentheses and a block in braces. -/
def guardedTerms (word : String) (test : Term Unit) (items : List (Term Unit)) : List (Term Unit) :=
  [keywordLeaf word, signLeaf .leftParen, test, signLeaf .rightParen] ++ bracedTerms items

namespace Row

variable {sketch sketch' : Sketch} {plain ast plain' ast' : Term Unit}
  {sketches sketches' : List Sketch} {plains asts plains' asts' : List (Term Unit)}

theorem braced (hbody : Row file sketches plains asts) :
    Row file (Language.braced sketches) (bracedTerms plains) (bracedTerms asts) :=
  (Row.sign .leftCurly rfl).append ((hbody.container .block rfl).append (Row.sign .rightCurly rfl))

theorem guarded (htest : Row file [sketch] [plain] [ast]) (word : String)
    (hword : word ∈ Token.keywords) (hbody : Row file sketches plains asts) :
    Row file (Language.guarded word sketch sketches) (guardedTerms word plain plains)
      (guardedTerms word ast asts) :=
  (Row.keyword file word hword).append ((Row.sign .leftParen rfl).append
    (htest.append ((Row.sign .rightParen rfl).append hbody.braced)))

/-! ## Expressions -/

/-- An expression in parts: normalization keeps it, and promotion makes one tree of it. -/
theorem phrase {grouping : Provisional} {first second result : Term Unit} {rest : List (Term Unit)}
    (hrow : Row file sketches (first :: second :: rest) asts) (hfirst : first.kind ≠ leftParenKind)
    (hresult :
      remaining [(list (.provisional grouping) asts).offer .promotion ()] = [result]) :
    Row file [Language.grouping grouping sketches]
      [list (.provisional grouping) (first :: second :: rest)] [result] :=
  hrow.group (.provisional grouping) (Or.inr ⟨_, _, _, rfl, hfirst⟩) hresult

theorem ne_leftParen (hoperand : plain.kind.isOperand = true) : plain.kind ≠ leftParenKind := by
  intro hkind
  rw [hkind] at hoperand
  cases hoperand

theorem unary (sign : Sign) (hoperand : Row file [sketch] [plain] [ast])
    (hast : ast.kind.isOperand = true) :
    Row file [grouping .expression [Language.operator sign, sketch]]
      [list (.provisional .expression) [operatorLeaf sign, plain]]
      [node () (.unary (operatorLeaf sign) ast)] := by
  have hsign : (operatorLeaf sign).kind ∈
      [Promotion.operatorKind .minus, Promotion.operatorKind .plus,
        Promotion.operatorKind .negation] :=
    List.mem_map_of_mem (f := Promotion.operatorKind) sign.2
  refine phrase ((Row.operator sign).append hoperand) (fun heq => nomatch heq) ?_
  exact remaining_of_build (.unary rfl rfl hsign hast)

theorem arithmetic (sign : Arithmetic) (hleft : Row file [sketch] [plain] [ast])
    (hright : Row file [sketch'] [plain'] [ast']) (hplain : plain.kind.isOperand = true)
    (hast : ast.kind.isOperand = true) (hast' : ast'.kind.isOperand = true) :
    Row file [grouping .expression [sketch, Language.operator sign, sketch']]
      [list (.provisional .expression) [plain, operatorLeaf sign, plain']]
      [node () (.binary (operatorLeaf sign) ast ast')] := by
  refine phrase (hleft.append ((Row.operator sign).append hright)) (ne_leftParen hplain) ?_
  exact remaining_of_build (.binary rfl rfl hast sign.2 hast')

theorem comparison (sign : Comparison) (hleft : Row file [sketch] [plain] [ast])
    (hright : Row file [sketch'] [plain'] [ast']) (hplain : plain.kind.isOperand = true)
    (hast : ast.kind.isOperand = true) (hast' : ast'.kind.isOperand = true) :
    Row file [grouping .expression [sketch, Language.operator sign, sketch']]
      [list (.provisional .expression) [plain, operatorLeaf sign, plain']]
      [node () (.comparison (operatorLeaf sign) ast ast')] := by
  refine phrase (hleft.append ((Row.operator sign).append hright)) (ne_leftParen hplain) ?_
  exact remaining_of_build (.comparison rfl rfl hast sign.2 hast')

theorem call (hcallee : Row file [sketch] [plain] [ast]) (hplain : plain.kind.isOperand = true)
    (harguments : Row file sketches plains asts) :
    Row file
      [grouping .expression
        [sketch, Language.sign .leftParen, .group .expressionList (Language.separated sketches),
          Language.sign .rightParen]]
      [list (.provisional .expression)
        [plain, signLeaf .leftParen, list .expressionList plains, signLeaf .rightParen]]
      [node () (.call ast (list .expressionList asts))] := by
  have hlist := harguments.separated.container .expressionList rfl
  refine phrase (hcallee.append ((Row.sign .leftParen rfl).append
    (hlist.append (Row.sign .rightParen rfl))))
    (ne_leftParen hplain) ?_
  exact remaining_of_build (.call rfl rfl rfl rfl rfl)

theorem member (dotted : Dotted) (hobject : Row file [sketch] [plain] [ast])
    (hplain : plain.kind.isOperand = true) (hast : ast.kind.isOperand = true) (property : Name) :
    Row file [grouping dotted.grouping [sketch, Language.sign .dot, property.sketch]]
      [list (.provisional dotted.grouping) [plain, signLeaf .dot, property.ast]]
      [node () (.member ast property.ast)] := by
  refine phrase (hobject.append ((Row.sign .dot rfl).append property.row)) (ne_leftParen hplain) ?_
  exact remaining_of_build (.member rfl rfl hast rfl rfl)

theorem function (name : Option Name) (parameters : List Name)
    (hbody : Row file sketches plains asts) :
    ∃ plain,
      Row file
        [grouping .expression <|
          word "func" :: name.toList.map Name.sketch ++
            [Language.sign .leftParen,
              .group .argumentList (Language.separated (parameters.map Name.sketch)),
              Language.sign .rightParen] ++
            Language.braced sketches]
        [plain]
        [node () <| .functionLiteral (name.map Name.ast) (list .argumentList (parameters.map Name.ast))
          (list .block asts)] ∧
      plain.form.hasRole .expression = true := by
  have hword := isKeyword_keywordLeaf "func"
  have hfunc := Row.keyword file "func" (by decide)
  have hlist := (row_names file parameters).separated.container .argumentList rfl
  have hrest := (Row.sign .leftParen rfl).append
    (hlist.append ((Row.sign .rightParen rfl).append hbody.braced))
  cases name with
  | none =>
      refine ⟨_, phrase (hfunc.append hrest) (fun heq => nomatch heq) ?_, rfl⟩
      exact remaining_of_build (.unnamedFunction rfl rfl hword (parameterized_form _ _))
  | some name =>
      refine ⟨_, phrase (hfunc.append (name.row.append hrest)) (fun heq => nomatch heq) ?_, rfl⟩
      exact remaining_of_build (.namedFunction rfl rfl hword rfl (parameterized_form _ _))

/-! ## Statements -/

theorem empty : Row file [grouping .statement [Language.sign .semicolon]]
    [list (.provisional .statement) []] [] :=
  Row.semicolon.group (.provisional .statement) (Or.inl rfl)
    (remaining_of_remove (.dropEmpty rfl rfl))

theorem expressionStatement (hrow : Row file [sketch] [plain] [ast])
    (hvalue : isValue ast.kind = true) :
    Row file [grouping .statement [sketch, Language.sign .semicolon]]
      [list (.provisional .statement) [plain]] [statementTerm ast] := by
  refine (hrow.append Row.semicolon).group (.provisional .statement) (Or.inl rfl) ?_
  rw [isValue, Bool.and_eq_true, Bool.and_eq_true, bne_iff_ne] at hvalue
  obtain ⟨⟨-, hsettled⟩, hclass⟩ := hvalue
  unfold statementTerm
  split
  next hform =>
      refine remaining_of_build (.functionDefinition rfl rfl ?_)
      rw [hform]
      rfl
  next hform =>
      refine remaining_of_lift (.unwrapSettled List.mem_cons_self rfl hsettled) ?_ hclass
      rw [Term.kind]
      intro hkind
      cases hast : ast.form with
      | functionLiteral name parameters body => exact hform _ _ _ hast
      | _ =>
          rw [hast] at hkind
          cases hkind

theorem declaration (name : Name) :
    Row file [grouping .statement [word "let", name.sketch, Language.sign .semicolon]]
      [list (.provisional .statement) [keywordLeaf "let", name.ast]]
      [node () (.variableDeclaration name.ast)] := by
  have hlet := Row.keyword file "let" (by decide)
  refine (hlet.append (name.row.append Row.semicolon)).group (.provisional .statement)
    (Or.inl rfl) ?_
  exact remaining_of_build (.declaration rfl rfl (isKeyword_keywordLeaf "let") rfl)

theorem initialisation (name : Name) (hvalue : Row file [sketch] [plain] [ast])
    (hast : ast.kind.isOperand = true) :
    Row file
      [grouping .statement
        [word "let", name.sketch, Language.operator .assignment, sketch, Language.sign .semicolon]]
      [list (.provisional .statement)
        [keywordLeaf "let", name.ast, operatorLeaf .assignment, plain]]
      [node () (.variableInitialisation name.ast ast)] := by
  have hlet := Row.keyword file "let" (by decide)
  have hrow := hlet.append (name.row.append ((Row.operator .assignment).append
    (hvalue.append Row.semicolon)))
  refine hrow.group (.provisional .statement) (Or.inl rfl) ?_
  exact remaining_of_build (.initialisation rfl rfl (isKeyword_keywordLeaf "let") rfl rfl hast)

/-- An assignment to whatever the target turns out to be. -/
theorem assignment {result : Term Unit} (htarget : Row file [sketch] [plain] [ast])
    (hvalue : Row file [sketch'] [plain'] [ast'])
    (hresult : remaining [(list (.provisional .statement)
      [ast, operatorLeaf .assignment, ast']).offer .promotion ()] = [result]) :
    Row file
      [grouping .statement
        [sketch, Language.operator .assignment, sketch', Language.sign .semicolon]]
      [list (.provisional .statement) [plain, operatorLeaf .assignment, plain']] [result] := by
  have hrow := htarget.append ((Row.operator .assignment).append (hvalue.append Row.semicolon))
  exact hrow.group (.provisional .statement) (Or.inl rfl) hresult

theorem conditional (hrow : Row file [sketch] [plain] [ast])
    (hkind : ast.kind = .construct .ifStatement) :
    Row file [grouping .statement [sketch]] [list (.provisional .statement) [plain]] [ast] := by
  refine hrow.group (.provisional .statement) (Or.inl rfl) ?_
  refine remaining_of_lift (.unwrapIf rfl rfl ?_) ?_ ?_
  · rw [← Term.kind, hkind]
    exact List.mem_cons_of_mem _ List.mem_cons_self
  · rw [hkind]
    decide
  · rw [hkind]
    decide

theorem loop (htest : Row file [sketch] [plain] [ast]) (hast : ast.kind.isOperand = true)
    (hbody : Row file sketches plains asts) :
    Row file [grouping .statement (Language.guarded "while" sketch sketches)]
      [list (.provisional .statement) (guardedTerms "while" plain plains)]
      [node () (.whileStatement ast (list .block asts))] := by
  refine (htest.guarded "while" (by decide) hbody).group (.provisional .statement) (Or.inl rfl) ?_
  exact remaining_of_build (.whileStatement rfl rfl (guarded_form "while" hast asts))

theorem classDefinition (name : Name) (hbody : Row file sketches plains asts)
    (hstatements : ∀ statement ∈ asts, statement.kind ≠ .construct .functionLiteral) :
    Row file
      [grouping .statement
        [grouping .temporary ([word "class", name.sketch] ++ Language.braced sketches)]]
      [list (.provisional .statement)
        [list (.provisional .temporary) ([keywordLeaf "class", name.ast] ++ bracedTerms plains)]]
      [node () (.classDefinition (classLiteral name.ast asts))] := by
  have hclass := Row.keyword file "class" (by decide)
  have hliteral := (hclass.append (name.row.append hbody.braced)).group (.provisional .temporary)
    (Or.inl rfl)
    (remaining_of_class name.ast hstatements
      (.classLiteral rfl rfl (isKeyword_keywordLeaf "class") rfl (braced_form asts)))
  refine hliteral.group (.provisional .statement) (Or.inl rfl) ?_
  exact remaining_of_build (.classDefinition rfl rfl rfl)

/-! ## If statements -/

theorem ifThen (htest : Row file [sketch] [plain] [ast]) (hast : ast.kind.isOperand = true)
    (hbody : Row file sketches plains asts) :
    Row file [grouping .ifStatement (Language.guarded "if" sketch sketches)]
      [list (.provisional .ifStatement) (guardedTerms "if" plain plains)]
      [node () (.ifStatement ast (list .block asts) none)] := by
  refine (htest.guarded "if" (by decide) hbody).group (.provisional .ifStatement) (Or.inl rfl) ?_
  exact remaining_of_build (.ifStatement rfl rfl (guarded_form "if" hast asts))

theorem ifElse (htest : Row file [sketch] [plain] [ast]) (hast : ast.kind.isOperand = true)
    (hbody : Row file sketches plains asts) (halternate : Row file sketches' plains' asts') :
    Row file
      [grouping .ifStatement
        (Language.guarded "if" sketch sketches ++ [word "else"] ++ Language.braced sketches')]
      [list (.provisional .ifStatement)
        (guardedTerms "if" plain plains ++ [keywordLeaf "else"] ++ bracedTerms plains')]
      [node () (.ifStatement ast (list .block asts) (some (list .block asts')))] := by
  have helse := Row.keyword file "else" (by decide)
  have hif := htest.guarded "if" (by decide) hbody
  have hrow := (hif.append helse).append halternate.braced
  refine hrow.group (.provisional .ifStatement) (Or.inl rfl) ?_
  exact remaining_of_build (.ifElse rfl rfl (guarded_form "if" hast asts)
    (isKeyword_keywordLeaf "else") (braced_form asts'))

theorem elseIf (htest : Row file [sketch] [plain] [ast]) (hast : ast.kind.isOperand = true)
    (hbody : Row file sketches plains asts) (halternate : Row file [sketch'] [plain'] [ast'])
    (hkind : ast'.kind = .construct .ifStatement) :
    Row file
      [grouping .ifStatement (Language.guarded "if" sketch sketches ++ [word "else", sketch'])]
      [list (.provisional .ifStatement)
        (guardedTerms "if" plain plains ++ [keywordLeaf "else", plain'])]
      [node () (.ifStatement ast (list .block asts) (some ast'))] := by
  have helse := Row.keyword file "else" (by decide)
  have hif := htest.guarded "if" (by decide) hbody
  have hrow := hif.append (helse.append halternate)
  refine hrow.group (.provisional .ifStatement) (Or.inl rfl) ?_
  exact remaining_of_build (.elseIf rfl rfl (guarded_form "if" hast asts)
    (isKeyword_keywordLeaf "else") hkind)

end Row

/-! ## Every phrase -/

mutual

theorem Expression.exists_row (file : String) : ∀ expression : Expression,
    ∃ plain, Row file [expression.sketch] [plain] [expression.ast] ∧ plain.kind.isOperand = true
  | .atom atom => ⟨atom.ast, atom.row, isOperand_of_isValue (Expression.atom atom).isValue_ast⟩
  | .compound compound => by
      obtain ⟨plain, hrow, hrole⟩ := compound.exists_row file
      refine ⟨plain, hrow, ?_⟩
      rw [Kind.isOperand, Bool.or_eq_true]
      exact Or.inl hrole

theorem Compound.exists_row (file : String) : ∀ compound : Compound,
    ∃ plain, Row file [compound.sketch] [plain] [compound.ast] ∧
      plain.form.hasRole .expression = true
  | .unary sign operand => by
      obtain ⟨plain, hrow, -⟩ := operand.exists_row file
      exact ⟨_, hrow.unary sign operand.isOperand_ast, rfl⟩
  | .arithmetic left sign right => by
      obtain ⟨plain, hleft, hplain⟩ := left.exists_row file
      obtain ⟨plain', hright, -⟩ := right.exists_row file
      exact ⟨_, hleft.arithmetic sign hright hplain left.isOperand_ast right.isOperand_ast, rfl⟩
  | .comparison left sign right => by
      obtain ⟨plain, hleft, hplain⟩ := left.exists_row file
      obtain ⟨plain', hright, -⟩ := right.exists_row file
      exact ⟨_, hleft.comparison sign hright hplain left.isOperand_ast right.isOperand_ast, rfl⟩
  | .parenthesized inner => by
      obtain ⟨plain, hrow, hrole⟩ := inner.exists_row file
      exact ⟨plain, hrow.parenthesized hrole, hrole⟩
  | .access access => access.exists_row file
  | .function name parameters body => by
      obtain ⟨plains, hbody⟩ := exists_row_body file body
      exact hbody.function name parameters

theorem Access.exists_row (file : String) : ∀ access : Access,
    ∃ plain, Row file [access.sketch] [plain] [access.ast] ∧ plain.form.hasRole .expression = true
  | .call callee arguments => by
      obtain ⟨plain, hcallee, hplain⟩ := callee.exists_row file
      obtain ⟨plains, harguments⟩ := exists_row_each file arguments
      exact ⟨_, hcallee.call hplain harguments, rfl⟩
  | .member dotted object property => by
      obtain ⟨plain, hobject, hplain⟩ := object.exists_row file
      refine ⟨_, hobject.member dotted hplain object.isOperand_ast property, ?_⟩
      cases dotted <;> rfl

theorem Statement.exists_row (file : String) : ∀ statement : Statement,
    ∃ plain, Row file [statement.sketch] [plain] statement.asts
  | .empty => ⟨_, Row.empty⟩
  | .expression expression => by
      obtain ⟨plain, hrow, -⟩ := expression.exists_row file
      exact ⟨_, hrow.expressionStatement expression.isValue_ast⟩
  | .declaration name => ⟨_, Row.declaration name⟩
  | .initialisation name value => by
      obtain ⟨plain, hvalue, -⟩ := value.exists_row file
      exact ⟨_, hvalue.initialisation name value.isOperand_ast⟩
  | .assignment name value => by
      obtain ⟨plain, hvalue, -⟩ := value.exists_row file
      refine ⟨_, name.row.assignment hvalue ?_⟩
      exact remaining_of_build (.assignment rfl rfl List.mem_cons_self rfl value.isOperand_ast)
  | .write target value => by
      obtain ⟨plain, htarget, -⟩ := target.exists_row file
      obtain ⟨plain', hvalue, -⟩ := value.exists_row file
      cases target with
      | call callee arguments =>
          refine ⟨_, htarget.assignment hvalue ?_⟩
          exact remaining_of_build (.indexWrite rfl rfl rfl rfl value.isOperand_ast)
      | member dotted object property =>
          refine ⟨_, htarget.assignment hvalue ?_⟩
          exact remaining_of_build
            (.assignment rfl rfl (List.mem_cons_of_mem _ List.mem_cons_self) rfl value.isOperand_ast)
  | .conditional conditional => by
      obtain ⟨plain, hrow⟩ := conditional.exists_row file
      exact ⟨_, hrow.conditional conditional.kind_ast⟩
  | .loop test body => by
      obtain ⟨plain, htest, -⟩ := test.exists_row file
      obtain ⟨plains, hbody⟩ := exists_row_body file body
      exact ⟨_, htest.loop test.isOperand_ast hbody⟩
  | .classDefinition name body => by
      obtain ⟨plains, hbody⟩ := exists_row_body file body
      exact ⟨_, hbody.classDefinition name fun _ htree => kind_of_mem_astBody htree⟩

theorem Conditional.exists_row (file : String) : ∀ conditional : Conditional,
    ∃ plain, Row file [conditional.sketch] [plain] [conditional.ast]
  | .ifThen test body => by
      obtain ⟨plain, htest, -⟩ := test.exists_row file
      obtain ⟨plains, hbody⟩ := exists_row_body file body
      exact ⟨_, htest.ifThen test.isOperand_ast hbody⟩
  | .ifElse test body alternate => by
      obtain ⟨plain, htest, -⟩ := test.exists_row file
      obtain ⟨plains, hbody⟩ := exists_row_body file body
      obtain ⟨plains', halternate⟩ := exists_row_body file alternate
      exact ⟨_, htest.ifElse test.isOperand_ast hbody halternate⟩
  | .elseIf test body alternate => by
      obtain ⟨plain, htest, -⟩ := test.exists_row file
      obtain ⟨plains, hbody⟩ := exists_row_body file body
      obtain ⟨plain', halternate⟩ := alternate.exists_row file
      exact ⟨_, htest.elseIf test.isOperand_ast hbody halternate alternate.kind_ast⟩

theorem exists_row_each (file : String) : ∀ expressions : List Expression,
    ∃ plains, Row file (sketchEach expressions) plains (astEach expressions)
  | [] => ⟨[], Row.nil⟩
  | expression :: rest => by
      obtain ⟨plain, hrow, -⟩ := expression.exists_row file
      obtain ⟨plains, hrest⟩ := exists_row_each file rest
      exact ⟨_, hrow.append hrest⟩

theorem exists_row_body (file : String) : ∀ body : List Statement,
    ∃ plains, Row file (sketchBody body) plains (astBody body)
  | [] => ⟨[], Row.nil⟩
  | statement :: rest => by
      obtain ⟨plain, hrow⟩ := statement.exists_row file
      obtain ⟨plains, hrest⟩ := exists_row_body file rest
      exact ⟨_, hrow.append hrest⟩

end

end AstPromotion.Language
