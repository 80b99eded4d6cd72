import AstPromotion.Proofs.Normalization.Invariant
import AstPromotion.Sketch.Basic
import Mathlib.Algebra.Ring.Int.Defs

/-! # What a program is spelled with

A leaf spells itself, and a construct stands for the words and marks that are
taken in where it is built. Tokens are weighed, so that a pair of parentheses that
normalization elides can count for nothing.
-/

namespace AstPromotion

namespace Token

/-- What encloses arguments, parameters and tests. -/
def parentheses : List Token :=
  [.mark (.punctuation .leftParen), .mark (.punctuation .rightParen)]

/-- What encloses a block. -/
def braces : List Token :=
  [.mark (.punctuation .leftCurly), .mark (.punctuation .rightCurly)]

/-- What tokens weigh together. -/
def weigh (weight : Token → Int) (tokens : List Token) : Int :=
  (tokens.map weight).sum

variable (weight : Token → Int)

theorem weigh_nil : weigh weight [] = 0 :=
  rfl

theorem weigh_cons (token : Token) (rest : List Token) :
    weigh weight (token :: rest) = weight token + weigh weight rest :=
  rfl

theorem weigh_append (first second : List Token) :
    weigh weight (first ++ second) = weigh weight first + weigh weight second := by
  rw [weigh, List.map_append, List.sum_append, weigh, weigh]

/-- Weighs the tokens that pass a test. -/
def indicator (test : Token → Bool) (token : Token) : Int :=
  if test token then 1 else 0

theorem weigh_indicator (test : Token → Bool) (tokens : List Token) :
    weigh (indicator test) tokens = tokens.countP test := by
  induction tokens with
  | nil => rfl
  | cons token rest ih =>
      rw [weigh_cons, ih, List.countP_cons, indicator]
      split <;> omega

theorem weigh_sub (first second : Token → Int) (tokens : List Token) :
    weigh (fun token => first token - second token) tokens =
      weigh first tokens - weigh second tokens := by
  induction tokens with
  | nil => rfl
  | cons token rest ih =>
      rw [weigh_cons, weigh_cons, weigh_cons, ih]
      omega

end Token

open Token (parentheses braces)

/-- The words and marks that are taken in where a construct is built. An operator stays below its
construct. -/
def Construct.spelling : Construct → List Token
  | .unaryExpression | .binaryExpression | .comparisonExpression => []
  | .functionDefinition | .classDefinition => []
  | .variableDeclaration => [.word "let"]
  | .variableInitialisation => [.word "let", .mark (.operator .assignment)]
  | .variableAssignment => [.mark (.operator .assignment)]
  | .arrayIndexWrite => parentheses ++ [.mark (.operator .assignment)]
  | .callExpression => parentheses
  | .memberExpression => [.mark (.punctuation .dot)]
  | .functionLiteral => .word "func" :: parentheses ++ braces
  | .classLiteral => .word "class" :: braces
  | .ifStatement => .word "if" :: parentheses ++ braces
  | .whileStatement => .word "while" :: parentheses ++ braces

namespace Form

variable {α β : Type}

/-- The word or mark that a leaf spells; literals spell none. -/
def token? : Form α → Option Token
  | .leaf .keyword value => value.word?.map .word
  | .leaf (.mark sign) _ => some (.mark sign)
  | _ => none

/-- What an if statement goes on with if its test fails. -/
def alternate? : Form α → Option α
  | .ifStatement _ _ alternate => alternate
  | _ => none

theorem token?_map (f : α → β) (form : Form α) : (form.map f).token? = form.token? := by
  cases form with
  | leaf kind value => cases kind <;> rfl
  | _ => rfl

theorem alternate?_map (f : α → β) (form : Form α) :
    (form.map f).alternate? = form.alternate?.map f := by
  cases form <;> rfl

theorem mem_children_of_alternate? {form : Form α} {alternate : α}
    (halternate : form.alternate? = some alternate) : alternate ∈ form.children := by
  cases form with
  | ifStatement test consequent other =>
      obtain rfl : other = some alternate := halternate
      simp [children]
  | _ => cases halternate

end Form

namespace Term

variable {ι κ : Type}

/-- A sum over a term is one over its root and over what is below each child. -/
theorem sum_subterms {M : Type} [AddMonoid M] (quantity : Term ι → M) (term : Term ι) :
    (term.subterms.map quantity).sum =
      quantity term + (term.children.map fun child => (child.subterms.map quantity).sum).sum := by
  rw [subterms_eq, List.map_cons, List.sum_cons, List.map_flatMap, List.flatMap_def,
    List.sum_flatten, List.map_map]
  rfl

/-- Whether a term is an if statement with a block for its alternate. -/
def endsInBlock (term : Term ι) : Bool :=
  term.form.alternate?.any (·.kind == .group .block)

/-- The words and marks that join an alternate to its if statement: a block is in braces. -/
def joining (term : Term ι) : List Token :=
  (if term.form.alternate?.isSome then [.word "else"] else []) ++
    if term.endsInBlock then braces else []

theorem joining_eq_nil {term : Term ι} (halternate : term.form.alternate? = none) :
    term.joining = [] := by
  rw [joining, endsInBlock, halternate]
  rfl

/-- The words and marks that a node stands for, those of its children aside. -/
def spelled (term : Term ι) : List Token :=
  match term.kind with
  | .construct built => built.spelling ++ term.joining
  | _ => term.form.token?.toList

/-- What the words and marks of a node weigh. -/
def ownWeight (weight : Token → Int) (term : Term ι) : Int :=
  Token.weigh weight term.spelled

/-- What the words and marks of a term weigh. -/
def tally (weight : Token → Int) (term : Term ι) : Int :=
  (term.subterms.map (ownWeight weight)).sum

variable {weight : Token → Int}

theorem tally_eq (term : Term ι) :
    term.tally weight = term.ownWeight weight + (term.children.map (tally weight)).sum :=
  sum_subterms (ownWeight weight) term

/-- A construct that is not joined to anything stands for what it is spelled with. -/
theorem tally_of_construct {term : Term ι} {built : Construct}
    (hkind : term.kind = .construct built) (halternate : term.form.alternate? = none) :
    term.tally weight =
      Token.weigh weight built.spelling + (term.children.map (tally weight)).sum := by
  rw [tally_eq, ownWeight, spelled, hkind, joining_eq_nil halternate]
  simp only [List.append_nil]

/-- An alternate stands for a word, and braces if it is a block. -/
theorem tally_of_alternate {term test consequent alternate : Term ι}
    (hform : term.form = .ifStatement test consequent (some alternate)) :
    term.tally weight =
      Token.weigh weight Construct.ifStatement.spelling + weight (.word "else") +
        (if alternate.kind = .group .block then Token.weigh weight braces else 0) +
          (test.tally weight + (consequent.tally weight + alternate.tally weight)) := by
  rw [tally_eq, ownWeight, spelled, kind, joining, endsInBlock, children, hform]
  simp only [Form.kind, Form.alternate?, Option.isSome_some, if_true, Option.any_some, beq_iff_eq,
    Form.children, Option.toList_some, Token.weigh_append, Token.weigh_cons, Token.weigh_nil,
    List.map_cons, List.map_nil, List.sum_cons, List.sum_nil]
  split
  next => omega
  next =>
      rw [Token.weigh_nil]
      omega

theorem tally_of_leaf {term : Term ι} {kind : LeafKind} {value : Value}
    (hform : term.form = .leaf kind value) : term.tally weight = term.ownWeight weight := by
  rw [tally_eq, children, hform]
  exact Int.add_zero _

/-- A group stands for nothing but its items. -/
theorem tally_of_group {term : Term ι} {heading : Heading} {items : List (Term ι)}
    (hform : term.form = .group heading items) :
    term.tally weight = (items.map (tally weight)).sum := by
  rw [tally_eq, ownWeight, spelled, kind, children, hform]
  exact Int.zero_add _

theorem tally_of_mark {term : Term ι} {mark : Mark} (hkind : term.kind = .leaf (.mark mark)) :
    term.tally weight = weight (.mark mark) := by
  obtain ⟨value, hform⟩ := Form.exists_of_kind_leaf hkind
  rw [tally_of_leaf hform, ownWeight, spelled, kind, hform]
  exact Int.add_zero _

theorem tally_of_keyword {term : Term ι} {word : String}
    (hword : term.form.isKeyword word = true) : term.tally weight = weight (.word word) := by
  rw [Form.isKeyword, Bool.and_eq_true, beq_iff_eq, beq_iff_eq] at hword
  obtain ⟨value, hform⟩ := Form.exists_of_kind_leaf hword.1
  have hvalue : value.word? = some word := by
    rw [← hword.2, hform]
    rfl
  rw [tally_of_leaf hform, ownWeight, spelled, kind, hform, Form.token?, hvalue]
  exact Int.add_zero _

theorem joining_map (f : ι → κ) (term : Term ι) : (term.map f).joining = term.joining := by
  rw [joining, joining, endsInBlock, endsInBlock, form_map, Form.alternate?_map, Option.isSome_map]
  cases term.form.alternate? with
  | none => rfl
  | some alternate => simp only [Option.map_some, Option.any_some, kind_map]

theorem spelled_map (f : ι → κ) (term : Term ι) : (term.map f).spelled = term.spelled := by
  rw [spelled, spelled, kind_map, form_map, Form.token?_map, joining_map]

theorem tally_map (f : ι → κ) (term : Term ι) : (term.map f).tally weight = term.tally weight := by
  rw [tally, subterms_map, List.map_map, tally]
  congr 1
  refine List.map_congr_left fun inner _ => ?_
  exact congrArg (Token.weigh weight) (spelled_map f inner)

theorem tally_sub (first second : Token → Int) (term : Term ι) :
    (term.tally fun token => first token - second token) = term.tally first - term.tally second := by
  rw [tally, tally, tally]
  induction term.subterms with
  | nil => rfl
  | cons inner rest ih =>
      simp only [List.map_cons, List.sum_cons, ih, ownWeight, Token.weigh_sub]
      omega

/-- The words and marks among the leaves of a term. -/
def tokens (term : Term ι) : List Token :=
  term.subterms.filterMap (·.form.token?)

/-- A shallow term weighs what the words and marks among its leaves do. -/
theorem Shallow.tally_eq {term : Term ι} (hshallow : term.Shallow) :
    term.tally weight = Token.weigh weight term.tokens := by
  have hsum (terms : List (Term ι)) (hterms : ∀ inner ∈ terms, ∀ built,
      inner.kind ≠ .construct built) : (terms.map (ownWeight weight)).sum =
        Token.weigh weight (terms.filterMap (·.form.token?)) := by
    induction terms with
    | nil => rfl
    | cons inner rest ih =>
        have hspelled : inner.spelled = inner.form.token?.toList := by
          rw [spelled]
          split
          next built hkind => exact absurd hkind (hterms inner List.mem_cons_self built)
          next => rfl
        rw [List.map_cons, List.sum_cons, ownWeight, hspelled,
          ih fun other hother => hterms other (List.mem_cons_of_mem _ hother), List.filterMap_cons]
        cases inner.form.token? with
        | none => exact Int.zero_add _
        | some token =>
            rw [Option.toList_some, Token.weigh_cons, Token.weigh_cons, Token.weigh_nil, Int.add_zero]
  exact hsum term.subterms hshallow

end Term

/-! ## Normalization -/

/-- Weights that make nothing of what normalization drops: separators, and parentheses as long as
they come in pairs. -/
structure Fair (weight : Token → Int) : Prop where
  separators : ∀ sign ∈ [Punctuation.comma, .semicolon, .leftBracket, .rightBracket],
    weight (.mark (.punctuation sign)) = 0
  parentheses :
    weight (.mark (.punctuation .leftParen)) + weight (.mark (.punctuation .rightParen)) = 0

/-- Tokens of which normalization drops none are weighed fairly. -/
theorem fair_indicator {test : Token → Bool}
    (htest : ∀ sign ∈ [Punctuation.comma, .semicolon, .leftBracket, .rightBracket, .leftParen,
      .rightParen], test (.mark (.punctuation sign)) = false) : Fair (Token.indicator test) where
  separators sign hsign := by
    rw [Token.indicator, htest sign (List.mem_append_left [_, _] hsign)]
    rfl
  parentheses := by
    rw [Token.indicator, Token.indicator, htest .leftParen (by simp), htest .rightParen (by simp)]
    rfl

namespace Normalization

open Term (node)

variable {ι : Type} {weight : Token → Int}

theorem tally_of_isSeparator (hfair : Fair weight) {term : Term ι}
    (hkind : isSeparator term.kind = true) : term.tally weight = 0 := by
  simp only [isSeparator, List.contains_eq_mem, decide_eq_true_eq, List.mem_map] at hkind
  obtain ⟨sign, hsign, hkind⟩ := hkind
  rw [Term.tally_of_mark hkind.symm]
  exact hfair.separators sign hsign

/-- Reading a word keeps its characters. -/
theorem ownWeight_of_readValue {label : ι} {kind : LeafKind} {text : String} {value : Value}
    (hread : readValue kind text = some value) :
    (node label (.leaf kind value)).ownWeight weight =
      (node label (.leaf kind (.raw text))).ownWeight weight := by
  cases kind with
  | literal | mark => rfl
  | keyword =>
      obtain rfl := Option.some.inj hread
      rfl

/-- What normalization puts in a term's place weighs what the term did. -/
theorem tally_offer (hfair : Fair weight) {fresh : ι} {term : Term ι} (hshallow : term.Shallow) :
    (term.offer .normalization fresh).term.tally weight = term.tally weight := by
  cases offered fresh term with
  | unmatched hplan hoffer => rw [hoffer]
  | read hform hread hterm hgone hevents =>
      rw [hterm, Term.tally_of_leaf (Term.form_node _ _), Term.tally_of_leaf hform,
        ownWeight_of_readValue hread, ← hform, Term.node_eta]
  | lifted hsubject hchild hchildren hterm hgone hevents =>
      rcases hshallow.leaf_or_group with ⟨kind, value, hform⟩ | ⟨heading, items, hform⟩
      · rw [hform] at hsubject
        rcases kind with _ | _ | (_ | _) <;> cases hsubject
      · rw [Term.children, hform] at hchildren
        rw [hterm, Term.tally_of_group hform]
        rcases hchildren with rfl | ⟨opening, closing, rfl, hopening, hclosing⟩
        · exact (Int.add_zero _).symm
        · have hpair := hfair.parentheses
          simp only [List.map_cons, List.map_nil, List.sum_cons, List.sum_nil,
            Term.tally_of_mark hopening, Term.tally_of_mark hclosing]
          omega
  | stripped hsubject hoffer =>
      obtain ⟨rule, subject, hoffer⟩ := hoffer
      rw [hoffer]

/-- Normalization keeps what a shallow term weighs. -/
theorem tally_normalize (hfair : Fair weight) {fresh : ι} {term : Term ι}
    (hshallow : term.Shallow) :
    (term.normalize fresh).term.tally weight = term.tally weight := by
  refine (keeps_normalize ?_ ?_ ?_ hshallow).2
  · exact fun label heading => ⟨0, fun items => Term.tally_eq _⟩
  · exact fun other hkind => tally_of_isSeparator hfair hkind
  · exact fun other hother => tally_offer hfair hother

end Normalization

end AstPromotion
