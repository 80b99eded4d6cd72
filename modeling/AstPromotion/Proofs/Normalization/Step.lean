import AstPromotion.Phase
import AstPromotion.Proofs.Matching

/-! # What normalization can do

The changes that the normalization rules can plan at a subject, with everything
the rule found there. Later proofs split on these cases and never open a rule.
-/

namespace AstPromotion.Normalization

variable {α : Type} {look : α → Form α}

/-- How normalization reads the raw text of a leaf. -/
def readValue (kind : LeafKind) (text : String) : Option Value :=
  match kind with
  | .literal .numeric => readNumber kind text
  | .literal .boolean => readBoolean kind text
  | .literal .string | .literal .identifier | .keyword => readWord kind text
  | .mark _ => none

/-- A change that normalization can plan at a subject. -/
inductive Step (look : α → Form α) (subject : α) : Edit α → Prop
  | coerce {kind : LeafKind} {text : String} {value : Value}
      (hform : look subject = .leaf kind (.raw text)) (hread : readValue kind text = some value) :
      Step look subject (.coerce value)
  | unwrap {child : α} (hsubject : (look subject).hasRole .expression = true)
      (hchildren : (look subject).children = [child])
      (hchild : (look child).kind.isOperand = true) :
      Step look subject (.lift child)
  | unparenthesize {opening inner closing : α}
      (hsubject : (look subject).hasRole .expression = true)
      (hchildren : (look subject).children = [opening, inner, closing])
      (hopening : (look opening).kind = .leaf (.mark (.punctuation .leftParen)))
      (hinner : (look inner).hasRole .expression = true)
      (hclosing : (look closing).kind = .leaf (.mark (.punctuation .rightParen))) :
      Step look subject (.lift inner)
  | strip (hsubject : isSeparator (look subject).kind = true) : Step look subject .remove

/-- Separators are leaves. -/
theorem children_of_isSeparator {form : Form α} (hsubject : isSeparator form.kind = true) :
    form.children = [] := by
  cases form with
  | leaf kind value => rfl
  | _ => simp [Form.kind, isSeparator] at hsubject

/-- A coercion rule that matches reads the subject's raw text. -/
theorem exists_of_coerce_plan? {read : LeafKind → String → Option Value} {subject : α}
    {edit : Edit α} (hplan : (Outcome.coerce read).plan? look subject = some edit) :
    ∃ kind text value, look subject = .leaf kind (.raw text) ∧ read kind text = some value ∧
      edit = .coerce value := by
  rw [Outcome.plan?] at hplan
  split at hplan
  next kind text hform =>
      obtain ⟨value, hread, rfl⟩ := Option.map_eq_some_iff.mp hplan
      exact ⟨kind, text, value, hform, hread, rfl⟩
  next => cases hplan

theorem step_of_coerceNumeric {subject : α} {edit : Edit α}
    (hplan : coerceNumeric.plan? look subject = some edit) : Step look subject edit := by
  obtain ⟨hsubject, -, hplan⟩ := Rule.of_plan? rfl hplan
  obtain ⟨kind, text, value, hform, hread, rfl⟩ := exists_of_coerce_plan? hplan
  simp only [coerceNumeric, hform, Form.kind, beq_iff_eq, Kind.leaf.injEq] at hsubject
  subst hsubject
  exact .coerce hform hread

theorem step_of_coerceBoolean {subject : α} {edit : Edit α}
    (hplan : coerceBoolean.plan? look subject = some edit) : Step look subject edit := by
  obtain ⟨hsubject, -, hplan⟩ := Rule.of_plan? rfl hplan
  obtain ⟨kind, text, value, hform, hread, rfl⟩ := exists_of_coerce_plan? hplan
  simp only [coerceBoolean, hform, Form.kind, beq_iff_eq, Kind.leaf.injEq] at hsubject
  subst hsubject
  exact .coerce hform hread

theorem step_of_coerceText {subject : α} {edit : Edit α}
    (hplan : coerceText.plan? look subject = some edit) : Step look subject edit := by
  obtain ⟨hsubject, -, hplan⟩ := Rule.of_plan? rfl hplan
  obtain ⟨kind, text, value, hform, hread, rfl⟩ := exists_of_coerce_plan? hplan
  simp only [coerceText, hform, Form.kind, List.contains_eq_mem, List.mem_cons, Kind.leaf.injEq,
    List.not_mem_nil, or_false, decide_eq_true_eq] at hsubject
  refine .coerce hform ?_
  rcases hsubject with rfl | rfl | rfl <;> exact hread

/-- Both wrapper rules lift an only child that may stand where a value is expected. -/
theorem step_of_elideWrapper {role : Role} {subject : α} {edit : Edit α}
    (hrole : ∀ kind : Kind, kind.hasRole role = true → kind.isOperand = true)
    (hsubject : (look subject).hasRole .expression = true)
    (haccepted : Test.acceptEach look [.role role] (look subject).children = true)
    (hplan : (Outcome.lift 0).plan? look subject = some edit) : Step look subject edit := by
  obtain ⟨child, hchildren, hchild, rfl⟩ := lift_of_plan? haccepted hplan
  exact .unwrap hsubject hchildren (hrole _ hchild)

theorem step_of_elideParentheses {subject : α} {edit : Edit α}
    (hplan : elideParentheses.plan? look subject = some edit) : Step look subject edit := by
  obtain ⟨hsubject, haccepted, hplan⟩ := Rule.of_plan? rfl hplan
  simp only [Test.acceptEach_cons, Test.acceptEach_nil, Test.accepts_sign,
    Test.accepts_role] at haccepted
  obtain ⟨opening, _, hchildren, hopening, inner, _, rfl, hinner, closing, _, rfl, hclosing,
    rfl⟩ := haccepted
  simp only [Outcome.plan?, hchildren, List.getElem?_cons_zero, List.getElem?_cons_succ,
    Option.map_some, Option.some.injEq] at hplan
  subst hplan
  exact .unparenthesize hsubject hchildren hopening hinner hclosing

theorem step_of_stripPunctuation {subject : α} {edit : Edit α}
    (hplan : stripPunctuation.plan? look subject = some edit) : Step look subject edit := by
  obtain ⟨hsubject, -, hplan⟩ := Rule.of_plan? rfl hplan
  obtain rfl : edit = .remove := (Option.some.inj hplan).symm
  exact .strip hsubject

/-- Every change that the catalogue plans is a step. -/
theorem step_of_plan? {subject : α} {name : String} {edit : Edit α}
    (hplan : catalogue.plan? look subject = some (name, edit)) : Step look subject edit := by
  obtain ⟨rule, hrule, -, hplan⟩ := Catalogue.exists_of_plan? hplan
  simp only [catalogue, List.mem_cons, List.not_mem_nil, or_false] at hrule
  rcases hrule with rfl | rfl | rfl | rfl | rfl | rfl | rfl
  · exact step_of_coerceNumeric hplan
  · exact step_of_coerceBoolean hplan
  · exact step_of_coerceText hplan
  · obtain ⟨hsubject, haccepted, hplan⟩ := Rule.of_plan? rfl hplan
    exact step_of_elideWrapper (by decide) hsubject haccepted hplan
  · exact step_of_elideParentheses hplan
  · obtain ⟨hsubject, haccepted, hplan⟩ := Rule.of_plan? rfl hplan
    exact step_of_elideWrapper (by decide) hsubject haccepted hplan
  · exact step_of_stripPunctuation hplan

/-- Where a step can be taken, the catalogue plans one. -/
theorem plan?_ne_none_of_step {subject : α} {edit : Edit α} (hstep : Step look subject edit) :
    catalogue.plan? look subject ≠ none := by
  cases hstep with
  | coerce hform hread =>
      rename_i kind text value
      have haccepted : Test.acceptEach look [] (look subject).children = true := by
        rw [hform]
        rfl
      have hplan {read : LeafKind → String → Option Value} (hread : read kind text = some value) :
          (Outcome.coerce read).plan? look subject = some (.coerce value) := by
        rw [Outcome.plan?, hform]
        simp only [hread, Option.map_some]
      rcases kind with (_ | _ | _ | _) | _ | sign
      · exact Catalogue.plan?_ne_none coerceNumeric (by simp [catalogue])
          (by rw [hform]; rfl) List.mem_cons_self haccepted (hplan hread)
      · exact Catalogue.plan?_ne_none coerceText (by simp [catalogue])
          (by rw [hform]; rfl) List.mem_cons_self haccepted (hplan hread)
      · exact Catalogue.plan?_ne_none coerceBoolean (by simp [catalogue])
          (by rw [hform]; rfl) List.mem_cons_self haccepted (hplan hread)
      · exact Catalogue.plan?_ne_none coerceText (by simp [catalogue])
          (by rw [hform]; rfl) List.mem_cons_self haccepted (hplan hread)
      · exact Catalogue.plan?_ne_none coerceText (by simp [catalogue])
          (by rw [hform]; rfl) List.mem_cons_self haccepted (hplan hread)
      · cases hread
  | unwrap hsubject hchildren hchild =>
      rename_i child
      have hplan : (Outcome.lift 0).plan? look subject = some (.lift child) := by
        rw [Outcome.plan?, hchildren]
        rfl
      rw [Kind.isOperand, Bool.or_eq_true] at hchild
      rcases hchild with hchild | hchild
      · exact Catalogue.plan?_ne_none elideExpressionWrapper (by simp [catalogue])
          hsubject List.mem_cons_self (by simpa [hchildren] using hchild) hplan
      · exact Catalogue.plan?_ne_none elideLiteralWrapper (by simp [catalogue])
          hsubject List.mem_cons_self (by simpa [hchildren] using hchild) hplan
  | unparenthesize hsubject hchildren hopening hinner hclosing =>
      rename_i opening inner closing
      have hplan : (Outcome.lift 1).plan? look subject = some (.lift inner) := by
        rw [Outcome.plan?, hchildren]
        rfl
      exact Catalogue.plan?_ne_none elideParentheses (by simp [catalogue]) hsubject
        List.mem_cons_self
        (by simpa [hchildren, hopening, hclosing, Form.hasRole] using hinner) hplan
  | strip hsubject =>
      have hleaf := children_of_isSeparator hsubject
      have hplan : Outcome.remove.plan? look subject = some .remove := rfl
      exact Catalogue.plan?_ne_none stripPunctuation (by simp [catalogue]) hsubject
        List.mem_cons_self (by rw [hleaf]; rfl) hplan

end AstPromotion.Normalization
