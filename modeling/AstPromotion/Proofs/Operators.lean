import AstPromotion.Proofs.Rejection
import Mathlib.Algebra.BigOperators.Group.List.Basic

/-! # Operators in an accepted program

Validation turns operators away except where a construct holds them, and promotion
puts exactly one below each operation. So there are as many operators as
operations, and no assignment mark is left.
-/

namespace AstPromotion

/-- What things come to that are worth something if they pass a test. -/
theorem sum_of_test {α : Type} (passes : α → Bool) (worth : Nat) (things : List α) :
    (things.map fun thing => if passes thing then worth else 0).sum =
      things.countP passes * worth := by
  induction things with
  | nil => exact (Nat.zero_mul _).symm
  | cons thing rest ih =>
      rw [List.map_cons, List.sum_cons, ih, List.countP_cons, Nat.add_mul, ite_mul, Nat.one_mul,
        Nat.zero_mul, Nat.add_comm]

namespace Term

variable {ι : Type} {term inner : Term ι}

/-- A term that promotion left and validation accepts. -/
structure Valid (term : Term ι) : Prop where
  root : term.form.reason? none = none
  fits : term.Fits
  typed : ∀ inner ∈ term.subterms, inner.form.Typed Kind.isOperand form

/-- Everything below the root is held. -/
theorem eq_or_held (hinner : inner ∈ term.subterms) :
    inner = term ∨ ∃ holder ∈ term.subterms, inner ∈ holder.children := by
  induction term using induction with
  | step term ih =>
      rcases mem_subterms_iff.mp hinner with rfl | ⟨child, hchild, hbelow⟩
      · exact Or.inl rfl
      · rcases ih child hchild hbelow with rfl | ⟨holder, hholder, hheld⟩
        · exact Or.inr ⟨term, term.mem_subterms_self, hchild⟩
        · exact Or.inr ⟨holder, mem_subterms_of_mem_children hchild hholder, hheld⟩

def isOperator (term : Term ι) : Bool :=
  term.form.hasRole .operator

theorem isOperator_of_isOperand (hoperand : term.form.kind.isOperand = true) :
    term.isOperator = false := by
  revert hoperand
  rw [isOperator, Form.hasRole]
  generalize term.form.kind = kind
  revert kind
  decide

/-- Only operations hold operators. -/
theorem isOperator_of_reason? {holder : Option Kind} (hreason : term.form.reason? holder = none)
    (hholder : holder.any Kind.holdsOperator = false) : term.isOperator = false := by
  cases hoperator : term.isOperator with
  | false => rfl
  | true =>
      rw [isOperator] at hoperator
      simp only [Form.reason?, hoperator, hholder, Bool.not_false, Bool.and_true, if_true] at hreason
      split_ifs at hreason

/-- The operators that the rules for operations ask for. -/
theorem operator_of_role {kind : Kind}
    (hkind : kind ∈ [Operator.minus, .plus, .negation].map Promotion.operatorKind ∨
      kind.hasRole .arithmeticOperator = true ∨ kind.hasRole .comparisonOperator = true) :
    kind.hasRole .operator = true ∧ kind ≠ Promotion.operatorKind .assignment := by
  revert kind
  decide

theorem ne_assignment (hoperator : term.isOperator = false) :
    term.kind ≠ Promotion.operatorKind .assignment := by
  intro hkind
  rw [isOperator, Form.hasRole, ← kind, hkind] at hoperator
  cases hoperator

theorem countP_operators_infix {left operator right : Term ι}
    (hoperator : operator.isOperator = true ∧ operator.kind ≠ Promotion.operatorKind .assignment)
    (hleft : left.form.kind.isOperand = true) (hright : right.form.kind.isOperand = true) :
    [left, operator, right].countP isOperator = 1 ∧
      ∀ child ∈ [left, operator, right], child.kind ≠ Promotion.operatorKind .assignment := by
  have hleft := isOperator_of_isOperand hleft
  have hright := isOperator_of_isOperand hright
  refine ⟨by simp [hoperator.1, hleft, hright], ?_⟩
  simpa using ⟨ne_assignment hleft, hoperator.2, ne_assignment hright⟩

/-- An operation holds one operator, and nothing else holds any. -/
theorem countP_operators (htyped : term.form.Typed Kind.isOperand form)
    (hreason : ∀ child ∈ term.children, child.form.reason? (some term.kind) = none) :
    term.children.countP isOperator = (if term.kind.holdsOperator then 1 else 0) ∧
      ∀ child ∈ term.children, child.kind ≠ Promotion.operatorKind .assignment := by
  have hnone (hholder : term.kind.holdsOperator = false) :
      term.children.countP isOperator = (if term.kind.holdsOperator then 1 else 0) ∧
        ∀ child ∈ term.children, child.kind ≠ Promotion.operatorKind .assignment := by
    have hchildren : ∀ child ∈ term.children, child.isOperator = false :=
      fun child hchild => isOperator_of_reason? (hreason child hchild) hholder
    rw [hholder, if_neg Bool.false_ne_true, List.countP_eq_zero]
    exact ⟨fun child hchild => Bool.eq_false_iff.mp (hchildren child hchild),
      fun child hchild => ne_assignment (hchildren child hchild)⟩
  cases hform : term.form with
  | unary operator operand =>
      rw [hform] at htyped
      have hoperator : operator.isOperator = true ∧
          operator.kind ≠ Promotion.operatorKind .assignment := operator_of_role (Or.inl htyped.1)
      have hoperand := isOperator_of_isOperand htyped.2
      rw [children, kind, hform]
      refine ⟨by simp [Form.children, Form.kind, Kind.holdsOperator, hoperator.1, hoperand], ?_⟩
      simpa [Form.children] using ⟨hoperator.2, ne_assignment hoperand⟩
  | binary operator left right =>
      rw [hform] at htyped
      rw [children, kind, hform]
      exact countP_operators_infix (operator_of_role (Or.inr (Or.inl htyped.1))) htyped.2.1 htyped.2.2
  | comparison operator left right =>
      rw [hform] at htyped
      rw [children, kind, hform]
      exact countP_operators_infix (operator_of_role (Or.inr (Or.inr htyped.1))) htyped.2.1 htyped.2.2
  | _ => exact hnone (by rw [kind, hform]; rfl)

/-- All that pass a test, counted at the root and where they are held. -/
theorem countP_subterms (test : Term ι → Bool) (term : Term ι) :
    term.subterms.countP test = (if test term then 1 else 0) +
      (term.subterms.map fun inner => inner.children.countP test).sum := by
  induction term using induction with
  | step term ih =>
      have hbelow (terms : List (Term ι)) (hterms : ∀ child ∈ terms, child ∈ term.children) :
          (terms.flatMap subterms).countP test = terms.countP test +
            ((terms.flatMap subterms).map fun inner => inner.children.countP test).sum := by
        induction terms with
        | nil => rfl
        | cons child rest ihrest =>
            have hchild := ih child (hterms child List.mem_cons_self)
            have hrest := ihrest fun other hother => hterms other (List.mem_cons_of_mem _ hother)
            rw [List.flatMap_cons, List.countP_append, List.map_append, List.sum_append, hchild,
              hrest, List.countP_cons]
            omega
      have hchildren := hbelow term.children fun _ hchild => hchild
      rw [subterms_eq, List.countP_cons, List.map_cons, List.sum_cons, hchildren]
      omega

theorem countP_holdsOperator (terms : List (Term ι)) :
    terms.countP (·.kind.holdsOperator) =
      terms.countP (·.kind == .construct .unaryExpression) +
        (terms.countP (·.kind == .construct .binaryExpression) +
          terms.countP (·.kind == .construct .comparisonExpression)) := by
  have hkinds : ∀ kind : Kind, (if kind.holdsOperator then 1 else 0) =
      (if kind == .construct .unaryExpression then 1 else 0) +
        ((if kind == .construct .binaryExpression then 1 else 0) +
          if kind == .construct .comparisonExpression then 1 else 0) := by
    decide
  induction terms with
  | nil => rfl
  | cons term rest ih =>
      rw [List.countP_cons, List.countP_cons, List.countP_cons, List.countP_cons, ih, hkinds]
      omega

namespace Valid

variable (hvalid : term.Valid)

include hvalid

/-- Every operator of a valid term is that of an operation. -/
theorem countP_isOperator :
    term.subterms.countP isOperator = term.subterms.countP (·.kind.holdsOperator) := by
  have hroot : term.isOperator = false := isOperator_of_reason? hvalid.root rfl
  have hheld : term.subterms.map (fun inner => inner.children.countP isOperator) =
      term.subterms.map fun inner => if inner.kind.holdsOperator then 1 else 0 :=
    List.map_congr_left fun inner hinner =>
      (countP_operators (hvalid.typed inner hinner) (hvalid.fits inner hinner)).1
  rw [countP_subterms, hroot, hheld, sum_of_test, Nat.mul_one]
  exact Nat.zero_add _

/-- No assignment mark is left in a valid term. -/
theorem ne_assignment (hinner : inner ∈ term.subterms) :
    inner.kind ≠ Promotion.operatorKind .assignment := by
  rcases eq_or_held hinner with rfl | ⟨holder, hholder, hheld⟩
  · exact Term.ne_assignment (isOperator_of_reason? hvalid.root rfl)
  · exact (countP_operators (hvalid.typed holder hholder) (hvalid.fits holder hholder)).2 inner hheld

theorem admissible (hinner : inner ∈ term.subterms) : inner.form.Admissible := by
  rcases eq_or_held hinner with rfl | ⟨holder, hholder, hheld⟩
  · exact Form.admissible_of_reason? hvalid.root
  · exact Form.admissible_of_reason? (hvalid.fits holder hholder inner hheld)

end Valid

end Term

end AstPromotion
