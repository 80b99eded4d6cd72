import AstPromotion.Proofs.Contents
import AstPromotion.Proofs.Promotion.Invariant

/-! # What promotion does to contents

Promotion drops keywords, punctuation and assignment marks, and nothing else. It
also keeps the order in which contents are read, with one exception: a class
literal reads its constructor before its body, and the source had it inside.
-/

namespace AstPromotion

namespace Term

variable {ι : Type}

/-- In what order the source had the contents of terms in a row. Contents are read in that order,
except that a constructor was among the statements of its class's body. -/
inductive SourceOrder : List (Term ι) → List (ι × Kind) → Prop
  | nil : SourceOrder [] []
  | plain {term : Term ι} {rest : List (Term ι)} {below others : List (ι × Kind)}
      (hplain : ∀ name constructor body, term.form ≠ .classLiteral name (some constructor) body)
      (hbelow : SourceOrder term.children below) (hrest : SourceOrder rest others) :
      SourceOrder (term :: rest) (term.own ++ below ++ others)
  | extracted {term name constructor body : Term ι} {before after rest : List (Term ι)}
      {names earlier function later others : List (ι × Kind)}
      (hterm : term.form = .classLiteral name (some constructor) body)
      (hbody : body.form = .group .block (before ++ after)) (hname : SourceOrder [name] names)
      (hbefore : SourceOrder before earlier) (hconstructor : SourceOrder [constructor] function)
      (hafter : SourceOrder after later) (hrest : SourceOrder rest others) :
      SourceOrder (term :: rest)
        (names ++ body.own ++ earlier ++ function ++ later ++ others)

namespace SourceOrder

variable {terms first second : List (Term ι)} {contents : List (ι × Kind)}

theorem append {front back : List (ι × Kind)} (hfirst : SourceOrder first front)
    (hsecond : SourceOrder second back) : SourceOrder (first ++ second) (front ++ back) := by
  induction hfirst with
  | nil => exact hsecond
  | plain hplain hbelow _ _ ih =>
      have happended := SourceOrder.plain hplain hbelow ih
      rwa [← List.append_assoc] at happended
  | extracted hterm hbody hname hbefore hconstructor hafter _ _ _ _ _ ih =>
      have happended := SourceOrder.extracted hterm hbody hname hbefore hconstructor hafter ih
      rwa [← List.append_assoc] at happended

theorem exists_of_append (horder : SourceOrder (first ++ second) contents) :
    ∃ front back, contents = front ++ back ∧ SourceOrder first front ∧ SourceOrder second back := by
  induction first generalizing contents with
  | nil => exact ⟨[], contents, rfl, .nil, horder⟩
  | cons term rest ih =>
      cases horder with
      | plain hplain hbelow hrest =>
          obtain ⟨front, back, rfl, hfront, hback⟩ := ih hrest
          refine ⟨_, back, ?_, .plain hplain hbelow hfront, hback⟩
          rw [List.append_assoc, List.append_assoc, List.append_assoc]
      | extracted hterm hbody hname hbefore hconstructor hafter hrest =>
          obtain ⟨front, back, rfl, hfront, hback⟩ := ih hrest
          refine ⟨_, back, ?_,
            .extracted hterm hbody hname hbefore hconstructor hafter hfront, hback⟩
          simp only [List.append_assoc]

theorem exists_of_cons {term : Term ι} (horder : SourceOrder (term :: second) contents) :
    ∃ front back, contents = front ++ back ∧ SourceOrder [term] front ∧ SourceOrder second back := by
  have happended : SourceOrder ([term] ++ second) contents := horder
  exact happended.exists_of_append

theorem singleton_of_plain {term : Term ι} {below : List (ι × Kind)}
    (hplain : ∀ name constructor body, term.form ≠ .classLiteral name (some constructor) body)
    (hbelow : SourceOrder term.children below) : SourceOrder [term] (term.own ++ below) := by
  have horder := SourceOrder.plain hplain hbelow .nil
  rwa [List.append_nil] at horder

theorem of_singleton {term : Term ι} (horder : SourceOrder [term] contents)
    (hplain : ∀ name constructor body, term.form ≠ .classLiteral name (some constructor) body) :
    ∃ below, contents = term.own ++ below ∧ SourceOrder term.children below := by
  cases horder with
  | @plain _ _ below _ _ hbelow hrest =>
      cases hrest
      exact ⟨below, List.append_nil _, hbelow⟩
  | extracted hterm => exact absurd hterm (hplain _ _ _)

/-- What is dropped without loss: a leaf that is not to be kept. -/
def isDropped (term : Term ι) : Bool :=
  match term.kind with
  | .leaf kind => !(Kind.leaf kind).isContent
  | _ => false

theorem leaf_of_isDropped {term : Term ι} (hdropped : isDropped term = true) :
    (∃ kind value, term.form = .leaf kind value) ∧ term.own = [] := by
  rw [isDropped] at hdropped
  split at hdropped
  next kind hkind =>
      refine ⟨⟨kind, Form.exists_of_kind_leaf hkind⟩, own_of_kind ?_⟩
      rw [hkind]
      simpa using hdropped
  next => cases hdropped

theorem eq_nil_of_isDropped {term : Term ι} (hdropped : isDropped term = true)
    (horder : SourceOrder [term] contents) : contents = [] := by
  obtain ⟨⟨kind, value, hform⟩, hown⟩ := leaf_of_isDropped hdropped
  obtain ⟨below, rfl, hbelow⟩ := horder.of_singleton (by simp [hform])
  rw [children, hform] at hbelow
  cases hbelow
  rw [hown, List.append_nil]

/-- Dropping what holds no contents makes no difference. -/
theorem filter (horder : SourceOrder terms contents) :
    SourceOrder (terms.filter (!isDropped ·)) contents := by
  induction terms generalizing contents with
  | nil => exact horder
  | cons term rest ih =>
      obtain ⟨front, back, rfl, hterm, hrest⟩ := horder.exists_of_cons
      cases hdropped : isDropped term with
      | true =>
          rw [List.filter_cons_of_neg (by simp [hdropped]), eq_nil_of_isDropped hdropped hterm]
          exact ih hrest
      | false =>
          rw [List.filter_cons_of_pos (by simp [hdropped])]
          exact hterm.append (ih hrest)

theorem of_isDropped {term : Term ι} (hdropped : isDropped term = true) :
    SourceOrder [term] [] := by
  obtain ⟨⟨kind, value, hform⟩, hown⟩ := leaf_of_isDropped hdropped
  have hbelow : SourceOrder term.children [] := by
    rw [children, hform]
    exact .nil
  have hleaf := singleton_of_plain (by simp [hform]) hbelow
  rwa [hown, List.append_nil] at hleaf

theorem of_filter (horder : SourceOrder (terms.filter (!isDropped ·)) contents) :
    SourceOrder terms contents := by
  induction terms generalizing contents with
  | nil => exact horder
  | cons term rest ih =>
      cases hdropped : isDropped term with
      | true =>
          rw [List.filter_cons_of_neg (by simp [hdropped])] at horder
          exact (of_isDropped hdropped).append (ih horder)
      | false =>
          rw [List.filter_cons_of_pos (by simp [hdropped])] at horder
          obtain ⟨front, back, rfl, hterm, hrest⟩ := horder.exists_of_cons
          exact hterm.append (ih hrest)

/-- Lists that differ in dropped terms only have the same source order. -/
theorem congr {others : List (Term ι)} (horder : SourceOrder terms contents)
    (hfilter : terms.filter (!isDropped ·) = others.filter (!isDropped ·)) :
    SourceOrder others contents :=
  of_filter (hfilter ▸ horder.filter)

end SourceOrder

end Term

namespace Promotion

open Term (node relist SourceOrder)
open Term.SourceOrder (isDropped)

variable {ι : Type}

theorem isDropped_of_kind {term : Term ι} {kind : LeafKind} (hkind : term.kind = .leaf kind)
    (hcontent : (Kind.leaf kind).isContent = false) : isDropped term = true := by
  rw [isDropped, hkind]
  simp [hcontent]

theorem isDropped_of_sign {term : Term ι} {sign : Punctuation}
    (hkind : term.form.kind = signKind sign) : isDropped term = true :=
  isDropped_of_kind hkind rfl

theorem isDropped_of_assignment {term : Term ι}
    (hkind : term.form.kind = operatorKind .assignment) : isDropped term = true :=
  isDropped_of_kind hkind rfl

theorem isDropped_of_keyword {term : Term ι} {word : String}
    (hword : term.form.isKeyword word = true) : isDropped term = true := by
  rw [Form.isKeyword, Bool.and_eq_true, beq_iff_eq] at hword
  exact isDropped_of_kind hword.1 rfl

/-- A construct has the contents of its fields, unless it is a class with a constructor. -/
theorem sourceOrder_of_fields {fresh : ι} {form : Form (Term ι)} {built : Construct}
    {contents : List (ι × Kind)} (hkind : form.kind = .construct built)
    (hplain : ∀ name constructor body, form ≠ .classLiteral name (some constructor) body)
    (hfields : SourceOrder form.children contents) : SourceOrder [node fresh form] contents := by
  have hown : (node fresh form).own = [] := Term.own_of_construct hkind
  have horder : SourceOrder [node fresh form] ((node fresh form).own ++ contents) :=
    SourceOrder.singleton_of_plain hplain hfields
  rwa [hown, List.nil_append] at horder

/-- The children that a rule leaves out are all dropped without loss. -/
theorem filter_children_of_step {subject : Term ι} {form : Form (Term ι)}
    (hstep : Step Term.form subject (.build form none))
    (hplain : ∀ callee arguments value, form ≠ .arrayIndexWrite callee arguments value) :
    subject.children.filter (!isDropped ·) = form.children.filter (!isDropped ·) := by
  generalize hedit : Edit.build form none = edit at hstep
  rw [Term.children]
  cases hstep with
  | unary _ hchildren _ _ =>
      cases hedit
      rw [hchildren]
      rfl
  | binary _ hchildren _ _ _ =>
      cases hedit
      rw [hchildren]
      rfl
  | comparison _ hchildren _ _ _ =>
      cases hedit
      rw [hchildren]
      rfl
  | assignment _ hchildren _ hmark _ =>
      cases hedit
      rw [hchildren]
      simp [Form.children, List.filter_cons, isDropped_of_assignment hmark]
  | indexWrite =>
      cases hedit
      exact absurd rfl (hplain _ _ _)
  | declaration _ hchildren hword _ =>
      cases hedit
      rw [hchildren]
      simp [Form.children, List.filter_cons, isDropped_of_keyword hword]
  | initialisation _ hchildren hword _ hmark _ =>
      cases hedit
      rw [hchildren]
      simp [Form.children, List.filter_cons, isDropped_of_keyword hword,
        isDropped_of_assignment hmark]
  | call _ hchildren hopening _ hclosing =>
      cases hedit
      rw [hchildren]
      simp [Form.children, List.filter_cons, isDropped_of_sign hopening,
        isDropped_of_sign hclosing]
  | member _ hchildren _ hdot _ =>
      cases hedit
      rw [hchildren]
      simp [Form.children, List.filter_cons, isDropped_of_sign hdot]
  | classLiteral _ hchildren hword _ hbraced =>
      rw [planClass] at hedit
      split at hedit
      · cases hedit
      · cases hedit
        rw [hchildren]
        simp [Form.children, List.filter_cons, isDropped_of_keyword hword,
          isDropped_of_sign hbraced.opening, isDropped_of_sign hbraced.closing]
  | namedFunction _ hchildren hword _ hparameterized =>
      cases hedit
      rw [hchildren]
      simp [Form.children, List.filter_cons, isDropped_of_keyword hword,
        isDropped_of_sign hparameterized.opening, isDropped_of_sign hparameterized.closing,
        isDropped_of_sign hparameterized.braced.opening,
        isDropped_of_sign hparameterized.braced.closing]
  | unnamedFunction _ hchildren hword hparameterized =>
      cases hedit
      rw [hchildren]
      simp [Form.children, List.filter_cons, isDropped_of_keyword hword,
        isDropped_of_sign hparameterized.opening, isDropped_of_sign hparameterized.closing,
        isDropped_of_sign hparameterized.braced.opening,
        isDropped_of_sign hparameterized.braced.closing]
  | ifStatement _ hchildren hguarded | whileStatement _ hchildren hguarded =>
      cases hedit
      rw [hchildren]
      simp [Form.children, List.filter_cons, isDropped_of_keyword hguarded.keyword,
        isDropped_of_sign hguarded.opening, isDropped_of_sign hguarded.closing,
        isDropped_of_sign hguarded.braced.opening, isDropped_of_sign hguarded.braced.closing]
  | ifElse _ hchildren hguarded hjoin hbraced =>
      cases hedit
      rw [hchildren]
      simp [Form.children, List.filter_cons, isDropped_of_keyword hguarded.keyword,
        isDropped_of_sign hguarded.opening, isDropped_of_sign hguarded.closing,
        isDropped_of_sign hguarded.braced.opening, isDropped_of_sign hguarded.braced.closing,
        isDropped_of_keyword hjoin, isDropped_of_sign hbraced.opening,
        isDropped_of_sign hbraced.closing]
  | elseIf _ hchildren hguarded hjoin _ =>
      cases hedit
      rw [hchildren]
      simp [Form.children, List.filter_cons, isDropped_of_keyword hguarded.keyword,
        isDropped_of_sign hguarded.opening, isDropped_of_sign hguarded.closing,
        isDropped_of_sign hguarded.braced.opening, isDropped_of_sign hguarded.braced.closing,
        isDropped_of_keyword hjoin]
  | functionDefinition _ hchildren _ =>
      cases hedit
      rw [hchildren]
      rfl
  | classDefinition _ hchildren _ =>
      cases hedit
      rw [hchildren]
      rfl
  | unwrapIf | unwrapSettled | dropEmpty => cases hedit

/-- The call that is assigned to is opened up where it stood. -/
theorem sourceOrder_of_opened {target mark value callee arguments : Term ι}
    {contents : List (ι × Kind)} (htarget : target.form = .call callee arguments)
    (hmark : isDropped mark = true) (horder : SourceOrder [target, mark, value] contents) :
    SourceOrder [callee, arguments, value] contents := by
  obtain ⟨front, back, rfl, hfirst, hrest⟩ := horder.exists_of_cons
  obtain ⟨below, rfl, hbelow⟩ := hfirst.of_singleton (by simp [htarget])
  rw [Term.children, htarget] at hbelow
  have hkind : target.kind = .construct .callExpression := by
    rw [Term.kind, htarget]
    rfl
  have hown := Term.own_of_construct hkind
  have hvalue : SourceOrder [value] back := by
    refine hrest.congr ?_
    simp [List.filter_cons, hmark]
  rw [hown, List.nil_append]
  exact hbelow.append hvalue

/-- The statement that holds a constructor says no more than the constructor. -/
theorem sourceOrder_of_constructorOf? {statement function : Term ι} {contents : List (ι × Kind)}
    (hfound : constructorOf? Term.form statement = some function)
    (horder : SourceOrder [statement] contents) : SourceOrder [function] contents := by
  rcases (eq_or_eq_of_constructorOf? hfound).1 with rfl | hform
  · exact horder
  · obtain ⟨below, rfl, hbelow⟩ := horder.of_singleton (by simp [hform])
    have hkind : statement.kind = .construct .functionDefinition := by
      rw [Term.kind, hform]
      rfl
    have hown := Term.own_of_construct hkind
    rw [Term.children, hform] at hbelow
    rw [hown, List.nil_append]
    exact hbelow

/-- A class literal reads its constructor before what is left of its body. -/
theorem sourceOrder_of_extracted {fresh : ι} {name body function : Term ι} {items others : List (Term ι)}
    {contents : List (ι × Kind)} (hbody : body.form = .group .block items)
    (htaken : takeConstructor? Term.form items = some (function, others))
    (horder : SourceOrder [name, body] contents) :
    SourceOrder [node fresh (.classLiteral name (some function) (body.withItems others))] contents := by
  obtain ⟨before, statement, after, rfl, rfl, hfound, -⟩ := exists_of_takeConstructor? htaken
  obtain ⟨names, back, rfl, hname, hrest⟩ := horder.exists_of_cons
  obtain ⟨below, rfl, hbelow⟩ := hrest.of_singleton (by simp [hbody])
  rw [Term.children, hbody] at hbelow
  obtain ⟨earlier, remainder, rfl, hbefore, hremainder⟩ := hbelow.exists_of_append
  obtain ⟨moved, later, rfl, hstatement, hafter⟩ := hremainder.exists_of_cons
  have hconstructor := sourceOrder_of_constructorOf? hfound hstatement
  have hown : (body.withItems (before ++ after)).own = body.own := by
    refine Term.own_congr rfl ?_
    rw [form_withItems hbody, Term.kind_node, Term.kind, hbody]
    rfl
  have hform : (node fresh
      (.classLiteral name (some function) (body.withItems (before ++ after)))).form = _ :=
    Term.form_node _ _
  have hclass := Term.SourceOrder.extracted hform (by rw [form_withItems hbody]; rfl) hname hbefore
    hconstructor hafter .nil
  rw [hown] at hclass
  simpa only [List.append_assoc, List.append_nil] using hclass

/-- What a rule builds has the contents of what it builds on. -/
theorem sourceOrder_of_step {fresh : ι} {subject : Term ι} {form : Form (Term ι)}
    {relisted : Option (Term ι × List (Term ι))} {contents : List (ι × Kind)}
    (hstep : Step Term.form subject (.build form relisted))
    (horder : SourceOrder subject.children contents) :
    SourceOrder [node fresh (relist relisted form)] contents := by
  obtain ⟨built, hkind⟩ := exists_kind_of_step hstep
  cases relisted with
  | none =>
      have hplain : ∀ name constructor body, form ≠ .classLiteral name (some constructor) body := by
        rintro name constructor body rfl
        generalize hedit : Edit.build (Form.classLiteral name (some constructor) body) none = edit
          at hstep
        cases hstep with
        | classLiteral _ _ _ _ _ =>
            rw [planClass] at hedit
            split at hedit <;> cases hedit
        | _ => cases hedit
      refine sourceOrder_of_fields hkind hplain ?_
      by_cases hopened : ∃ callee arguments value, form = .arrayIndexWrite callee arguments value
      · obtain ⟨callee, arguments, value, rfl⟩ := hopened
        obtain ⟨target, mark, hchildren, htarget, hmark⟩ := exists_of_step_indexWrite hstep
        rw [Term.children, hchildren] at horder
        exact sourceOrder_of_opened htarget (isDropped_of_assignment hmark) horder
      · refine horder.congr (filter_children_of_step hstep ?_)
        exact fun callee arguments value heq => hopened ⟨callee, arguments, value, heq⟩
  | some relisted =>
      obtain ⟨word, name, opening, body, closing, items, function, others, hchildren, hword, -,
        hbraced, hbody, htaken, rfl, rfl⟩ := exists_of_step_relisted hstep
      refine sourceOrder_of_extracted hbody htaken ?_
      refine horder.congr ?_
      rw [Term.children, hchildren]
      simp [List.filter_cons, isDropped_of_keyword hword, isDropped_of_sign hbraced.opening,
        isDropped_of_sign hbraced.closing]

/-- What the rules make of a group has the contents of the group; a group that is removed has
none. -/
theorem sourceOrder_offer (fresh label : ι) (heading : Heading) {items : List (Term ι)}
    {contents : List (ι × Kind)} (hitems : SourceOrder items contents) :
    (((node label (.group heading items)).offer .promotion fresh).gone = true →
        (node label (.group heading items)).own ++ contents = []) ∧
      (((node label (.group heading items)).offer .promotion fresh).gone = false →
        SourceOrder [((node label (.group heading items)).offer .promotion fresh).term]
          ((node label (.group heading items)).own ++ contents)) := by
  have hself : SourceOrder [node label (.group heading items)]
      ((node label (.group heading items)).own ++ contents) :=
    Term.SourceOrder.singleton_of_plain (by simp) hitems
  cases hplan : Phase.promotion.catalogue.plan? Term.form (node label (.group heading items)) with
  | none =>
      rw [Term.offer_of_none hplan]
      exact ⟨fun h => absurd h Bool.false_ne_true, fun _ => hself⟩
  | some planned =>
      obtain ⟨rule, edit⟩ := planned
      have hstep := step_of_plan? hplan
      have hown : (node label (.group heading items)).own = [] := by
        obtain ⟨grouping, hsubject⟩ := exists_kind_subject_of_step hstep
        apply Term.own_of_kind
        rw [Term.kind, hsubject]
        rfl
      rw [Term.offer_of_some hplan, hown, List.nil_append]
      cases edit with
      | build form relisted =>
          exact ⟨fun h => absurd h Bool.false_ne_true, fun _ => sourceOrder_of_step hstep hitems⟩
      | lift child =>
          refine ⟨fun h => absurd h Bool.false_ne_true, fun _ => ?_⟩
          have hchild : items = [child] := children_of_step_lift hstep
          rw [hchild] at hitems
          exact hitems
      | remove =>
          refine ⟨fun _ => ?_, fun h => absurd h.symm Bool.false_ne_true⟩
          have hempty : items = [] := children_of_step_remove hstep
          rw [hempty] at hitems
          cases hitems
          rfl
      | coerce value => exact absurd hstep not_step_coerce

/-- The source had the contents of what promotion leaves in the order in which the shallow term has
its own. -/
theorem sourceOrder_promote {fresh : ι} {term : Term ι} (hshallow : term.Shallow) :
    ((term.promote fresh).gone = true → term.contents = []) ∧
      ((term.promote fresh).gone = false →
        SourceOrder [(term.promote fresh).term] term.contents) := by
  induction term using Term.induction with
  | step term ih =>
      rcases hshallow.leaf_or_group with ⟨kind, value, hform⟩ | ⟨heading, items, hform⟩
      · rw [Term.promote_of_leaf hform, Term.contents_eq]
        refine ⟨fun h => absurd h Bool.false_ne_true, fun _ => ?_⟩
        refine Term.SourceOrder.singleton_of_plain (by simp [hform]) ?_
        rw [Term.children, hform]
        exact .nil
      · have hchild : ∀ item ∈ items, item ∈ term.children := by
          intro item hitem
          rw [Term.children, hform]
          exact hitem
        have hitems : SourceOrder (Term.remaining (items.map (Term.promote fresh)))
            (items.flatMap Term.contents) := by
          -- A removed sibling had no contents, so those of the others are still in a row.
          clear hform
          induction items with
          | nil => exact .nil
          | cons item rest ihrest =>
              have hmem := hchild item List.mem_cons_self
              obtain ⟨hgone, hstays⟩ := ih item hmem (hshallow.of_mem_children hmem)
              have hrest := ihrest fun other hother => hchild other (List.mem_cons_of_mem _ hother)
              rw [List.map_cons, Term.remaining_cons, List.flatMap_cons]
              cases hitem : (item.promote fresh).gone with
              | true =>
                  rw [if_pos rfl, hgone hitem]
                  exact hrest
              | false =>
                  rw [if_neg Bool.false_ne_true]
                  exact (hstays hitem).append hrest
        obtain ⟨hterm, hgone⟩ := Term.promote_of_group hform fresh
        have hown : (node term.label (.group heading
            (Term.remaining (items.map (Term.promote fresh))))).own = term.own := by
          refine Term.own_congr rfl ?_
          rw [Term.kind_node, Term.kind, hform]
          rfl
        have hoffer := sourceOrder_offer fresh term.label heading hitems
        rw [hown, ← hterm, ← hgone] at hoffer
        rw [Term.contents_eq, Term.children, hform]
        exact hoffer

end Promotion

end AstPromotion
