import AstPromotion.Proofs.Form
import AstPromotion.Rule

/-! # Planning through a view

Rules read nodes through a lookup only. A map from one store of nodes to another
that keeps forms therefore keeps every plan: what a rule does to an id in an
arena is what it does to the term there.
-/

namespace AstPromotion

variable {α β : Type}

namespace Form

/-- Mapping what a template's places stand for maps what is built from it. -/
theorem traverse?_map {γ : Type} (f : α → β) (find : γ → Option α) (template : Form γ) :
    template.traverse? (fun place => (find place).map f) = (template.traverse? find).map (map f) := by
  have hoption (name : Option γ) :
      name.mapM (fun place => (find place).map f) = (name.mapM find).map (Option.map f) := by
    cases name with
    | none => rfl
    | some place => cases hfind : find place <;> simp [hfind]
  have hlist (items : List γ) :
      items.mapM (fun place => (find place).map f) = (items.mapM find).map (List.map f) := by
    induction items with
    | nil => rfl
    | cons item rest ih =>
        cases hfind : find item with
        | none => simp [hfind]
        | some found => cases hrest : rest.mapM find <;> simp [hfind, ih, hrest]
  cases template with
  | leaf kind value => rfl
  | group heading items => cases hitems : items.mapM find <;> simp [traverse?, hlist, hitems, map]
  | unary operator operand | variableInitialisation operator operand
  | variableAssignment operator operand | call operator operand | member operator operand
  | whileStatement operator operand =>
      cases hfirst : find operator <;> cases hsecond : find operand <;>
        simp [traverse?, hfirst, hsecond, map]
  | binary operator left right | comparison operator left right
  | arrayIndexWrite operator left right =>
      cases hfirst : find operator <;> cases hsecond : find left <;>
        cases hthird : find right <;> simp [traverse?, hfirst, hsecond, hthird, map]
  | variableDeclaration only | functionDefinition only | classDefinition only =>
      cases hfirst : find only <;> simp [traverse?, hfirst, map]
  | functionLiteral name parameters body =>
      cases hfirst : name.mapM find <;> cases hsecond : find parameters <;>
        cases hthird : find body <;> simp [traverse?, hoption, hfirst, hsecond, hthird, map]
  | classLiteral name constructor body =>
      cases hfirst : find name <;> cases hsecond : constructor.mapM find <;>
        cases hthird : find body <;> simp [traverse?, hoption, hfirst, hsecond, hthird, map]
  | ifStatement test consequent alternate =>
      cases hfirst : find test <;> cases hsecond : find consequent <;>
        cases hthird : alternate.mapM find <;>
        simp [traverse?, hoption, hfirst, hsecond, hthird, map]

end Form

/-- The change with every node it names replaced by its image. -/
def Edit.map (f : α → β) : Edit α → Edit β
  | coerce value => coerce value
  | lift child => lift (f child)
  | remove => remove
  | build form relisted =>
    build (form.map f) (relisted.map fun (group, items) => (f group, items.map f))

/-- On the nodes of a set closed under children, what one lookup shows is the image of what the
other shows. -/
structure Views (look : α → Form α) (look' : β → Form β) (f : α → β) (within : α → Prop) : Prop where
  look_eq : ∀ node, within node → look' (f node) = (look node).map f
  closed : ∀ node, within node → ∀ child ∈ (look node).children, within child

namespace Views

variable {look : α → Form α} {look' : β → Form β} {f : α → β} {within : α → Prop}

theorem kind_eq (views : Views look look' f within) {node : α} (hnode : within node) :
    (look' (f node)).kind = (look node).kind := by
  rw [views.look_eq node hnode, Form.kind_map]

theorem children_eq (views : Views look look' f within) {node : α} (hnode : within node) :
    (look' (f node)).children = (look node).children.map f := by
  rw [views.look_eq node hnode, Form.children_map]

theorem accepts_eq (views : Views look look' f within) {node : α} (hnode : within node)
    (test : Test) : test.accepts (look' (f node)) = test.accepts (look node) := by
  cases test with
  | any => rfl
  | kind accepted => rw [Test.accepts, Test.accepts, views.kind_eq hnode]
  | keyword word =>
      rw [Test.accepts, Test.accepts, views.look_eq node hnode, Form.isKeyword_map]

theorem acceptEach_eq (views : Views look look' f within) (tests : List Test) {nodes : List α}
    (hnodes : ∀ node ∈ nodes, within node) :
    Test.acceptEach look' tests (nodes.map f) = Test.acceptEach look tests nodes := by
  induction tests generalizing nodes with
  | nil => cases nodes <;> rfl
  | cons test tests ih =>
      cases nodes with
      | nil => rfl
      | cons node nodes =>
          rw [List.map_cons, Test.acceptEach, Test.acceptEach,
            views.accepts_eq (hnodes node List.mem_cons_self),
            ih fun other hother => hnodes other (List.mem_cons_of_mem _ hother)]

theorem descend_eq (views : Views look look' f within) {subject : α} (hsubject : within subject)
    (place : Place) : descend look' (f subject) place = (descend look subject place).map f := by
  induction place generalizing subject with
  | nil => rfl
  | cons position place ih =>
      rw [descend, descend, views.children_eq hsubject, List.getElem?_map]
      cases hchild : (look subject).children[position]? with
      | none => rfl
      | some child => exact ih (views.closed subject hsubject child (List.mem_of_getElem? hchild))

theorem isFunctionNamed_eq (views : Views look look' f within) {function : α}
    (hfunction : within function) (word : String) :
    isFunctionNamed look' word (f function) = isFunctionNamed look word function := by
  have hclosed := views.closed function hfunction
  rw [isFunctionNamed, isFunctionNamed, views.look_eq function hfunction]
  cases hform : look function with
  | functionLiteral name parameters body =>
      cases name with
      | none => rfl
      | some name =>
          have hname : within name := hclosed name (by simp [hform, Form.children])
          change ((look' (f name)).word? == some word) = ((look name).word? == some word)
          rw [views.look_eq name hname, Form.word?_map]
  | _ => rfl

theorem constructorOf?_eq (views : Views look look' f within) {statement : α}
    (hstatement : within statement) :
    constructorOf? look' (f statement) = (constructorOf? look statement).map f := by
  have hclosed := views.closed statement hstatement
  have hfilter (function : α) (hfunction : within function) :
      (some (f function)).filter (isFunctionNamed look' "constructor") =
        ((some function).filter (isFunctionNamed look "constructor")).map f := by
    rw [Option.filter_some, Option.filter_some, views.isFunctionNamed_eq hfunction]
    split <;> rfl
  rw [constructorOf?, constructorOf?, views.look_eq statement hstatement]
  cases hform : look statement with
  | functionDefinition function =>
      exact hfilter function (hclosed function (by simp [hform, Form.children]))
  | functionLiteral name parameters body => exact hfilter statement hstatement
  | _ => rfl

theorem takeConstructor?_eq (views : Views look look' f within) {statements : List α}
    (hstatements : ∀ statement ∈ statements, within statement) :
    takeConstructor? look' (statements.map f) =
      (takeConstructor? look statements).map fun (function, others) =>
        (f function, others.map f) := by
  induction statements with
  | nil => rfl
  | cons statement rest ih =>
      have hrest := ih fun other hother => hstatements other (List.mem_cons_of_mem _ hother)
      rw [List.map_cons, takeConstructor?, takeConstructor?,
        views.constructorOf?_eq (hstatements statement List.mem_cons_self), hrest]
      cases constructorOf? look statement with
      | some function => rfl
      | none => cases takeConstructor? look rest <;> rfl

theorem planClass_eq (views : Views look look' f within) {name body : α} (hbody : within body) :
    planClass look' (f name) (f body) = (planClass look name body).map f := by
  rw [planClass, planClass, views.children_eq hbody,
    views.takeConstructor?_eq (views.closed body hbody)]
  cases takeConstructor? look (look body).children <;> rfl

theorem outcome_plan?_eq (views : Views look look' f within) {subject : α}
    (hsubject : within subject) (outcome : Outcome) :
    outcome.plan? look' (f subject) = (outcome.plan? look subject).map (Edit.map f) := by
  have hclosed := views.closed subject hsubject
  cases outcome with
  | coerce read =>
      rw [Outcome.plan?, Outcome.plan?, views.look_eq subject hsubject]
      cases look subject with
      | leaf kind value =>
          cases value with
          | raw text => cases hread : read kind text <;> simp [Form.map, hread, Edit.map]
          | _ => rfl
      | _ => rfl
  | lift position =>
      rw [Outcome.plan?, Outcome.plan?, views.children_eq hsubject, List.getElem?_map]
      cases (look subject).children[position]? <;> rfl
  | remove => rfl
  | build template =>
      have hplaces : descend look' (f subject) = fun place => (descend look subject place).map f :=
        funext fun place => views.descend_eq hsubject place
      rw [Outcome.plan?, Outcome.plan?, hplaces, Form.traverse?_map]
      cases template.traverse? (descend look subject) <;> rfl
  | buildClass name body =>
      rw [Outcome.plan?, Outcome.plan?, views.children_eq hsubject, List.getElem?_map,
        List.getElem?_map]
      cases hname : (look subject).children[name]? with
      | none => rfl
      | some name =>
          cases hbody : (look subject).children[body]? with
          | none => rfl
          | some body =>
              exact congrArg some (views.planClass_eq (hclosed body (List.mem_of_getElem? hbody)))

theorem rule_plan?_eq (views : Views look look' f within) {subject : α}
    (hsubject : within subject) (rule : Rule) :
    rule.plan? look' (f subject) = (rule.plan? look subject).map (Edit.map f) := by
  have hshape (shape : Shape) :
      shape.plan? look' (f subject) = (shape.plan? look subject).map (Edit.map f) := by
    rw [Shape.plan?, Shape.plan?, views.children_eq hsubject,
      views.acceptEach_eq _ (views.closed subject hsubject), views.outcome_plan?_eq hsubject]
    split <;> rfl
  rw [Rule.plan?, Rule.plan?, views.kind_eq hsubject]
  split
  next hsubject =>
      induction rule.shapes with
      | nil => rfl
      | cons shape rest ih =>
          rw [List.findSome?_cons, List.findSome?_cons, hshape]
          cases shape.plan? look subject with
          | none => exact ih
          | some edit => rfl
  next => rfl

/-- The same rule matches on both sides of a view, and its changes correspond. -/
theorem plan?_eq (views : Views look look' f within) {subject : α} (hsubject : within subject)
    (rules : Catalogue) :
    rules.plan? look' (f subject) =
      (rules.plan? look subject).map fun (name, edit) => (name, edit.map f) := by
  induction rules with
  | nil => rfl
  | cons rule rest ih =>
      rw [Catalogue.plan?, Catalogue.plan?, List.findSome?_cons, List.findSome?_cons,
        views.rule_plan?_eq hsubject]
      cases rule.plan? look subject with
      | none => exact ih
      | some edit => rfl

theorem plan?_eq_none_iff (views : Views look look' f within) {subject : α}
    (hsubject : within subject) (rules : Catalogue) :
    rules.plan? look' (f subject) = none ↔ rules.plan? look subject = none := by
  rw [views.plan?_eq hsubject, Option.map_eq_none_iff]

end Views

end AstPromotion
