import AstPromotion.Proofs.Operators
import AstPromotion.Proofs.Promotion.Spelling

/-! # Every word and mark is accounted for

Both phases keep what a program weighs. In an accepted program no words and marks
are left but operators, one below each operation, so its constructs stand for
everything that the source was spelled with, but for pairs of parentheses.
-/

namespace AstPromotion

open Token (parentheses braces)

namespace Token

/-- Whether a token is the operator of an operation: any but the mark that assigns. -/
def isOperation : Token → Bool
  | mark (.operator sign) => sign != .assignment
  | _ => false

end Token

/-- What things come to that are worth something for each of several tests that they pass. -/
theorem sum_of_tests {α γ : Type} (tests : List γ) (passes : γ → α → Bool) (worth : γ → Nat)
    (things : List α) :
    (things.map fun thing =>
        (tests.map fun test => if passes test thing then worth test else 0).sum).sum =
      (tests.map fun test => things.countP (passes test) * worth test).sum := by
  induction tests with
  | nil => simp
  | cons test rest ih =>
      simp only [List.map_cons, List.sum_cons]
      rw [List.sum_map_add, sum_of_test, ih]

namespace Term

variable {ι : Type} {term inner : Term ι}

/-- Of all constructs, a node is the one it is. -/
theorem sum_constructs (built : Construct) (worth : Construct → Nat) :
    (Construct.all.map fun other =>
      if Kind.construct built == .construct other then worth other else 0).sum = worth built := by
  rw [List.sum_map_eq_nsmul_single built]
  · have hcount : Construct.all.count built = 1 := by cases built <;> rfl
    rw [hcount, if_pos (beq_self_eq_true _), one_nsmul]
  · intro other hother _
    exact if_neg fun heq => hother (Kind.construct.inj (beq_iff_eq.mp heq)).symm

/-- A node that is no construct is none of them. -/
theorem sum_constructs_eq_zero {kind : Kind} (hkind : ∀ built, kind ≠ .construct built)
    (worth : Construct → Nat) :
    (Construct.all.map fun other => if kind == .construct other then worth other else 0).sum = 0 := by
  refine List.sum_eq_zero fun value hvalue => ?_
  obtain ⟨other, -, rfl⟩ := List.mem_map.mp hvalue
  exact if_neg fun heq => hkind other (beq_iff_eq.mp heq)

namespace Valid

variable (hvalid : term.Valid)

include hvalid

/-- What a node of a valid term stands for, if operators other than the one that assigns all pass a
test or all fail it. -/
theorem countP_spelled (hinner : inner ∈ term.subterms) {test : Token → Bool} {operators : Bool}
    (htest : ∀ sign, sign ≠ .assignment → test (.mark (.operator sign)) = operators) :
    inner.spelled.countP test =
      (Construct.all.map fun built =>
          if inner.kind == .construct built then built.spelling.countP test else 0).sum +
        inner.joining.countP test +
          if inner.isOperator then operators.toNat else 0 := by
  have hoperator : inner.isOperator = inner.kind.hasRole .operator := rfl
  cases hkind : inner.kind with
  | construct built =>
      rw [spelled, hoperator, hkind, List.countP_append, sum_constructs]
      rfl
  | group grouping =>
      obtain ⟨heading, items, hform⟩ := Form.exists_of_kind_group hkind
      have halternate : inner.form.alternate? = none := by rw [hform]; rfl
      rw [spelled, hoperator, hkind, hform, joining_eq_nil halternate,
        sum_constructs_eq_zero (by rintro _ ⟨⟩)]
      simp [Form.token?, Kind.hasRole]
  | leaf leaf =>
      obtain ⟨value, hform⟩ := Form.exists_of_kind_leaf hkind
      have halternate : inner.form.alternate? = none := by rw [hform]; rfl
      have hadmissible := hvalid.admissible hinner
      rw [hform] at hadmissible
      rw [spelled, hoperator, hkind, hform, joining_eq_nil halternate,
        sum_constructs_eq_zero (by rintro _ ⟨⟩)]
      rcases hadmissible with hcontainer | ⟨built, hbuilt⟩ | ⟨literal, value, heq, -⟩ |
        ⟨sign, value, heq⟩
      · cases hcontainer
      · cases hbuilt
      · cases heq
        rfl
      · cases heq
        -- What is left of the operators is what the test treats alike.
        have hsign : sign ≠ .assignment := by
          rintro rfl
          exact hvalid.ne_assignment hinner hkind
        have htoken := htest sign hsign
        cases operators <;> simp [Form.token?, Kind.hasRole, htoken]

/-- What passes a test in a valid term, by what stands for it. -/
theorem tally_indicator (test : Token → Bool) (operators : Bool)
    (htest : ∀ sign, sign ≠ .assignment → test (.mark (.operator sign)) = operators) :
    term.tally (Token.indicator test) =
      ((Construct.all.map fun built =>
          term.subterms.countP (·.kind == .construct built) * built.spelling.countP test).sum +
        (term.subterms.countP (·.form.alternate?.isSome) * [Token.word "else"].countP test +
          term.subterms.countP endsInBlock * braces.countP test) +
        term.subterms.countP isOperator * operators.toNat : Nat) := by
  have hjoining (inner : Term ι) : inner.joining.countP test =
      (if inner.form.alternate?.isSome then [Token.word "else"].countP test else 0) +
        if inner.endsInBlock then braces.countP test else 0 := by
    rw [joining, List.countP_append]
    split <;> split <;> rfl
  have hspelled : term.subterms.map (fun inner => inner.spelled.countP test) = _ :=
    List.map_congr_left fun inner hinner => hvalid.countP_spelled hinner htest
  have hsum : term.tally (Token.indicator test) =
      ((term.subterms.map fun inner => inner.spelled.countP test).sum : Nat) := by
    rw [tally, Nat.cast_list_sum, List.map_map]
    exact congrArg List.sum (List.map_congr_left fun inner _ => Token.weigh_indicator test _)
  rw [hsum, hspelled, List.sum_map_add, List.sum_map_add, sum_of_test, sum_of_tests]
  simp only [hjoining]
  rw [List.sum_map_add, sum_of_test, sum_of_test]

end Valid

end Term

/-! ## Counting in an arena -/

namespace Arena

/-- How many nodes from the root on pass a test. -/
def count (arena : Arena) (root : Id) (test : Id → Bool) : Nat :=
  (arena.tree root).preorder.countP test

/-- How many leaves spell a word or mark that passes a test. -/
def tokens (arena : Arena) (root : Id) (test : Token → Bool) : Nat :=
  arena.count root fun id => (arena.form id).token?.any test

/-- How many nodes are constructs of a kind. -/
def constructs (arena : Arena) (root : Id) (built : Construct) : Nat :=
  arena.count root fun id => arena.kind id == .construct built

/-- How many if statements have an alternate. -/
def alternates (arena : Arena) (root : Id) : Nat :=
  arena.count root fun id => (arena.form id).alternate?.isSome

/-- How many if statements have a block for their alternate. -/
def blockAlternates (arena : Arena) (root : Id) : Nat :=
  arena.count root fun id =>
    (arena.form id).alternate?.any fun other => arena.kind other == .group .block

variable {before arena : Arena} {root : Id} {file : String} {sketch : Sketch} {term : Term Id}
  {config : Config} {report : Report}

/-- A test of nodes counts what it tells of the terms that they hold. -/
theorem Bears.count_eq (hbears : arena.Bears term) {test : Id → Bool} {passes : Term Id → Bool}
    (htest : ∀ inner ∈ term.subterms, test inner.label = passes inner) :
    arena.count term.label test = term.subterms.countP passes := by
  rw [count, hbears.preorder_tree, Term.labels, List.countP_map]
  refine List.countP_congr fun inner hinner => ?_
  rw [Function.comp_apply, htest inner hinner]

theorem Bears.tokens_eq (hbears : arena.Bears term) (test : Token → Bool) :
    arena.tokens term.label test = term.tokens.countP test := by
  rw [tokens, Term.tokens, List.countP_filterMap]
  refine hbears.count_eq fun inner hinner => ?_
  rw [(hbears.holds.of_mem hinner).form_eq, Form.token?_map]
  cases inner.form.token? <;> rfl

theorem Bears.constructs_eq (hbears : arena.Bears term) (built : Construct) :
    arena.constructs term.label built = term.subterms.countP (·.kind == .construct built) :=
  hbears.count_eq fun inner hinner => by rw [(hbears.holds.of_mem hinner).kind_eq]

theorem Bears.alternates_eq (hbears : arena.Bears term) :
    arena.alternates term.label = term.subterms.countP (·.form.alternate?.isSome) :=
  hbears.count_eq fun inner hinner => by
    rw [(hbears.holds.of_mem hinner).form_eq, Form.alternate?_map, Option.isSome_map]

theorem Bears.blockAlternates_eq (hbears : arena.Bears term) :
    arena.blockAlternates term.label = term.subterms.countP Term.endsInBlock := by
  refine hbears.count_eq fun inner hinner => ?_
  rw [(hbears.holds.of_mem hinner).form_eq, Form.alternate?_map, Term.endsInBlock]
  cases halternate : inner.form.alternate? with
  | none => rfl
  | some other =>
      have hchild : other ∈ inner.children := Form.mem_children_of_alternate? halternate
      have hother := hbears.holds.of_mem (Term.mem_subterms_of_child_of_mem hinner hchild)
      rw [Option.map_some, Option.any_some, Option.any_some, hother.kind_eq]

/-- A program as it was read and what it was accepted as, which weigh the same. -/
structure Balanced (before after : Arena) (root : Id) (term result : Term Id) : Prop where
  bears : before.Bears term
  label : term.label = root
  shallow : term.Shallow
  bears_result : after.Bears result
  label_result : result.label = root
  valid : result.Valid
  tally_eq : ∀ weight, Fair weight → term.tally weight = result.tally weight

/-- Both phases keep what a program weighs. -/
theorem BearsSketch.exists_balanced (hsketch : before.BearsSketch root file sketch term)
    (hok : (before.optimize root config).outcome = .ok report) (hvalidate : config.validate = true) :
    ∃ result, Balanced before (before.optimize root config).arena root term result := by
  obtain ⟨-, hpromoted, harena, hvalid⟩ := hsketch.program.of_optimize_eq_ok hok
  obtain ⟨middle, result, hran, hresult, hterm, hstays⟩ := hsketch.exists_promoted hpromoted
  have hshallow : middle.erase.Shallow := Term.shallow_map.mpr (hran.shallow hsketch.shallow)
  have hvalid : (before.promoted config root).arena.validate result.label = .ok () := by
    rw [hresult.label]
    exact hvalid hvalidate
  obtain ⟨hroot, hfits⟩ := hresult.bears.fits_of_validate hvalid
  rw [harena]
  refine ⟨result, hsketch.program.bears, hsketch.program.label, hsketch.shallow, hresult.bears,
    hresult.label, ⟨hroot, hfits, typed_of_promote_eq hshallow hterm hstays⟩, ?_⟩
  intro weight hfair
  have hnormal : middle.erase.Shallow ∧ middle.erase.tally weight = term.tally weight := by
    refine hran.keeps (fun other => other.Shallow ∧ other.tally weight = term.tally weight) ?_ ?_
    · rintro other ⟨hother, htally⟩
      exact ⟨Normalization.shallow_normalize () hother,
        (Normalization.tally_normalize hfair hother).trans htally⟩
    · exact ⟨Term.shallow_map.mpr hsketch.shallow, Term.tally_map _ _⟩
  rw [← hnormal.2, ← (Promotion.tally_promote hshallow).2, hterm]
  exact Term.tally_map _ _

namespace Balanced

variable {after : Arena} {result : Term Id}
  (hbalanced : Balanced before after root term result)

include hbalanced

/-- What passes a test in a program as it was read, by what stands for it in the accepted one. -/
theorem tokens_eq (test : Token → Bool) (operators : Bool) (hfair : Fair (Token.indicator test))
    (htest : ∀ sign, sign ≠ .assignment → test (.mark (.operator sign)) = operators) :
    before.tokens root test =
      (Construct.all.map fun built =>
          after.constructs root built * built.spelling.countP test).sum +
        (after.alternates root * [Token.word "else"].countP test +
          after.blockAlternates root * braces.countP test) +
        (after.constructs root .unaryExpression + (after.constructs root .binaryExpression +
          after.constructs root .comparisonExpression)) * operators.toNat := by
  have hsum := hbalanced.tally_eq _ hfair
  rw [hbalanced.shallow.tally_eq, Token.weigh_indicator, hbalanced.valid.tally_indicator _ _ htest,
    Nat.cast_inj, hbalanced.valid.countP_isOperator, Term.countP_holdsOperator] at hsum
  have hafter := hbalanced.bears_result
  rw [← hbalanced.bears.tokens_eq, hbalanced.label] at hsum
  rw [hsum, ← hafter.alternates_eq, ← hafter.blockAlternates_eq]
  simp only [← hafter.constructs_eq, hbalanced.label_result]

end Balanced

end Arena

/-! ## The balance -/

/-- How the words and marks of a program as it was read are accounted for by the constructs of the
program that was accepted. -/
structure Accounted (before after : Arena) (root : Id) : Prop where
  declarations : before.tokens root (· == .word "let") =
    after.constructs root .variableDeclaration + after.constructs root .variableInitialisation
  functions : before.tokens root (· == .word "func") = after.constructs root .functionLiteral
  classes : before.tokens root (· == .word "class") = after.constructs root .classLiteral
  conditions : before.tokens root (· == .word "if") = after.constructs root .ifStatement
  alternates : before.tokens root (· == .word "else") = after.alternates root
  loops : before.tokens root (· == .word "while") = after.constructs root .whileStatement
  returns : before.tokens root (· == .word "return") = 0
  members : before.tokens root (· == .mark (.punctuation .dot)) =
    after.constructs root .memberExpression
  assignments : before.tokens root (· == .mark (.operator .assignment)) =
    after.constructs root .variableInitialisation + after.constructs root .variableAssignment +
      after.constructs root .arrayIndexWrite
  operations : before.tokens root Token.isOperation =
    after.constructs root .unaryExpression + after.constructs root .binaryExpression +
      after.constructs root .comparisonExpression
  braces : ∀ sign ∈ [Punctuation.leftCurly, .rightCurly],
    before.tokens root (· == .mark (.punctuation sign)) =
      after.constructs root .functionLiteral + after.constructs root .classLiteral +
        after.constructs root .whileStatement + after.constructs root .ifStatement +
          after.blockAlternates root
  parentheses : before.tokens root (· == .mark (.punctuation .leftParen)) =
    before.tokens root (· == .mark (.punctuation .rightParen))

namespace Arena.Balanced

variable {before after : Arena} {root : Id} {term result : Term Id}
  (hbalanced : Balanced before after root term result)

include hbalanced

/-- No operator is a word, and words are weighed fairly. -/
theorem tokens_word_eq (word : String) :
    before.tokens root (· == .word word) =
      (Construct.all.map fun built =>
          after.constructs root built * built.spelling.countP (· == .word word)).sum +
        after.alternates root * [Token.word "else"].countP (· == .word word) := by
  have hbraces : Token.braces.countP (· == .word word) = 0 := rfl
  rw [hbalanced.tokens_eq _ false (fair_indicator fun _ _ => rfl) fun _ _ => rfl, hbraces]
  simp only [Bool.toNat_false, Nat.mul_zero, Nat.add_zero]

/-- Parentheses are elided in pairs, and the constructs that have them have both. -/
theorem tokens_leftParen_eq :
    before.tokens root (· == .mark (.punctuation .leftParen)) =
      before.tokens root (· == .mark (.punctuation .rightParen)) := by
  have hfair : Fair fun token => Token.indicator (· == .mark (.punctuation .leftParen)) token -
      Token.indicator (· == .mark (.punctuation .rightParen)) token :=
    ⟨by decide, by decide⟩
  have hspelling : ∀ built : Construct,
      built.spelling.countP (· == .mark (.punctuation .leftParen)) =
        built.spelling.countP (· == .mark (.punctuation .rightParen)) := by
    rintro (_ | _) <;> rfl
  have hresult : result.tally (Token.indicator (· == .mark (.punctuation .leftParen))) =
      result.tally (Token.indicator (· == .mark (.punctuation .rightParen))) := by
    rw [hbalanced.valid.tally_indicator _ false fun _ _ => rfl,
      hbalanced.valid.tally_indicator _ false fun _ _ => rfl]
    simp only [hspelling]
    rfl
  have hsum := hbalanced.tally_eq _ hfair
  rw [hbalanced.shallow.tally_eq, Token.weigh_sub, Token.weigh_indicator, Token.weigh_indicator,
    ← hbalanced.bears.tokens_eq, ← hbalanced.bears.tokens_eq, hbalanced.label, Term.tally_sub,
    hresult] at hsum
  omega

theorem accounted : Accounted before after root where
  declarations := by
    simp [hbalanced.tokens_word_eq, Construct.all, Construct.spelling, parentheses, braces]
  functions := by
    simp [hbalanced.tokens_word_eq, Construct.all, Construct.spelling, parentheses, braces]
  classes := by
    simp [hbalanced.tokens_word_eq, Construct.all, Construct.spelling, parentheses, braces]
  conditions := by
    simp [hbalanced.tokens_word_eq, Construct.all, Construct.spelling, parentheses, braces]
  alternates := by
    simp [hbalanced.tokens_word_eq, Construct.all, Construct.spelling, parentheses, braces]
  loops := by
    simp [hbalanced.tokens_word_eq, Construct.all, Construct.spelling, parentheses, braces]
  returns := by
    simp [hbalanced.tokens_word_eq, Construct.all, Construct.spelling, parentheses, braces]
  members := by
    rw [hbalanced.tokens_eq _ false (fair_indicator (by decide)) fun _ _ => rfl]
    simp [Construct.all, Construct.spelling, parentheses, braces]
  assignments := by
    rw [hbalanced.tokens_eq _ false (fair_indicator (by decide)) fun _ hsign => by simpa using hsign]
    simp [Construct.all, Construct.spelling, parentheses, braces, Nat.add_assoc]
  operations := by
    rw [hbalanced.tokens_eq _ true (fair_indicator (by decide)) fun _ hsign => by
      simpa [Token.isOperation] using hsign]
    simp [Construct.all, Construct.spelling, parentheses, braces, Token.isOperation, Nat.add_assoc]
  braces := by
    refine List.forall_mem_cons.mpr ⟨?_, List.forall_mem_singleton.mpr ?_⟩
    · rw [hbalanced.tokens_eq _ false (fair_indicator (by decide)) fun _ _ => rfl]
      simp [Construct.all, Construct.spelling, parentheses, braces, Nat.add_assoc, Nat.add_left_comm]
    · rw [hbalanced.tokens_eq _ false (fair_indicator (by decide)) fun _ _ => rfl]
      simp [Construct.all, Construct.spelling, parentheses, braces, Nat.add_assoc, Nat.add_left_comm]
  parentheses := hbalanced.tokens_leftParen_eq

end Arena.Balanced

/-- Acceptance accounts for every word and mark: in a program that optimization with validation
accepts, the constructs number what the source was spelled with. -/
theorem accounted_of_optimizeSource {file source : String} {config : Config} {program : Optimized}
    (hvalidate : config.validate = true)
    (hok : (optimizeSource file source config).1 = .ok program) :
    ∃ before, parseSource file source = .ok (program.root, before) ∧
      Accounted before program.arena program.root := by
  obtain ⟨before, sketch, term, hparse, hsketch, hreport, harena⟩ :=
    Arena.exists_of_optimizeSource hok
  obtain ⟨result, hbalanced⟩ := hsketch.exists_balanced hreport hvalidate
  rw [harena] at hbalanced
  exact ⟨before, hparse, hbalanced.accounted⟩

/-- An initialisation whose value is in parentheses that are elided. -/
def parenthesizedValue : String :=
  "(Program (Statement let x '=' (Expression '(' (Expression '-' y) ')')))"

theorem accounted_parenthesizedValue :
    ∃ program, (optimizeSource "main" parenthesizedValue).1 = .ok program ∧
      ∃ before, parseSource "main" parenthesizedValue = .ok (program.root, before) ∧
        Accounted before program.arena program.root := by
  have hok : (optimizeSource "main" parenthesizedValue).1.isOk = true := by decide +kernel
  cases hprogram : (optimizeSource "main" parenthesizedValue).1 with
  | ok program => exact ⟨program, rfl, accounted_of_optimizeSource rfl hprogram⟩
  | error failure =>
      rw [hprogram] at hok
      cases hok

end AstPromotion
