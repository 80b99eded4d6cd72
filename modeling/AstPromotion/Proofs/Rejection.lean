import AstPromotion.Proofs.Normalization.Separators
import AstPromotion.Proofs.Outline
import AstPromotion.Proofs.Validity

/-! # Where a program is rejected

Validation reports a node that cannot stand where it does, after everything
before it in preorder was accepted. Neither phase has anything to do with what
was accepted, so as long as the reported node is settled, further visits leave
it where it is, with the same things before it.
-/

namespace AstPromotion

namespace Tree

variable {α β : Type} {look : β → Form α} {holder : Kind} {path : Path} {leftover : Leftover}

mutual

/-- Validation looks at no more of a tree than its outline. -/
theorem leftover?_map_blank (look : β → Form α) (holder : Option Kind) (path : Path) :
    ∀ tree : Tree β, (tree.map fun node => (look node).blank).leftover? id holder path =
      tree.leftover? look holder path
  | .node label children => by
      rw [map, leftover?, leftover?]
      simp only [id, Form.blank, Form.reason?_map, Form.kind_map]
      rw [← leftoverAmong?_mapEach_blank look]
      rfl

theorem leftoverAmong?_mapEach_blank (look : β → Form α) (holder : Kind) (path : Path)
    (position : Nat) : ∀ trees : List (Tree β),
      leftoverAmong? id holder path position (mapEach (fun node => (look node).blank) trees) =
        leftoverAmong? look holder path position trees
  | [] => rfl
  | tree :: rest => by
      rw [mapEach, leftoverAmong?, leftoverAmong?, leftover?_map_blank look,
        leftoverAmong?_mapEach_blank look]

end

/-- What is found among siblings is found in the first one that has something left over. -/
theorem exists_of_leftoverAmong?_eq_some {position : Nat} {trees : List (Tree β)}
    (hfound : leftoverAmong? look holder path position trees = some leftover) :
    ∃ before child after, trees = before ++ child :: after ∧
      (∀ tree ∈ before, ∃ below, leftover? look (some holder) below tree = none) ∧
        leftover? look (some holder) (path.child (position + before.length)) child =
          some leftover := by
  induction trees generalizing position with
  | nil => cases hfound
  | cons tree rest ih =>
      rw [leftoverAmong?] at hfound
      split at hfound
      next found hfirst =>
          obtain rfl := Option.some.inj hfound
          exact ⟨[], tree, rest, rfl, List.forall_mem_nil _, hfirst⟩
      next hfirst =>
          obtain ⟨before, child, after, rfl, hbefore, hchild⟩ := ih hfound
          refine ⟨tree :: before, child, after, rfl, ?_, ?_⟩
          · exact List.forall_mem_cons.mpr ⟨⟨_, hfirst⟩, hbefore⟩
          · rwa [List.length_cons, Nat.add_comm before.length, ← Nat.add_assoc]

theorem leftoverAmong?_append {position : Nat} {before after : List (Tree β)} {child : Tree β}
    (hbefore : ∀ tree ∈ before, ∀ below, leftover? look (some holder) below tree = none)
    (hchild : leftover? look (some holder) (path.child (position + before.length)) child =
      some leftover) :
    leftoverAmong? look holder path position (before ++ child :: after) = some leftover := by
  induction before generalizing position with
  | nil => rw [List.nil_append, leftoverAmong?, show position = position + [].length from rfl, hchild]
  | cons tree rest ih =>
      rw [List.cons_append, leftoverAmong?, hbefore tree List.mem_cons_self]
      refine ih (fun other hother => hbefore other (List.mem_cons_of_mem _ hother)) ?_
      rwa [List.length_cons, Nat.add_comm rest.length, ← Nat.add_assoc] at hchild

end Tree

namespace Form

variable {α : Type} {form : Form α}

theorem reason?_prune (gone : α → Bool) (form : Form α) (holder : Option Kind) :
    (form.prune gone).reason? holder = form.reason? holder := by
  cases form <;> rfl

/-- Children that are not gone stay in front, up to any of them. -/
theorem exists_children_prune {gone : α → Bool} {before after : List α} {child : α}
    (hchildren : form.children = before ++ child :: after)
    (hbefore : ∀ other ∈ before, gone other = false) (hchild : gone child = false) :
    ∃ after', (form.prune gone).children = before ++ child :: after' := by
  cases form with
  | group heading items =>
      refine ⟨after.filter (!gone ·), ?_⟩
      have hkept : before.filter (!gone ·) = before :=
        List.filter_eq_self.mpr fun other hother => by rw [hbefore other hother]; rfl
      rw [children] at hchildren
      rw [prune, children, hchildren, List.filter_append, hkept,
        List.filter_cons_of_pos (by rw [hchild]; rfl)]
  | functionLiteral name parameters body =>
      cases name with
      | none => exact ⟨after, hchildren⟩
      | some name =>
          cases hgone : gone name with
          | false => exact ⟨after, by simpa [prune, children, Option.filter, hgone] using hchildren⟩
          | true =>
              simp only [children, Option.toList_some, List.cons_append, List.nil_append,
                List.cons_eq_append_iff] at hchildren
              grind
  | classLiteral name constructor body =>
      cases constructor with
      | none => exact ⟨after, hchildren⟩
      | some constructor =>
          cases hgone : gone constructor with
          | false => exact ⟨after, by simpa [prune, children, Option.filter, hgone] using hchildren⟩
          | true =>
              simp only [prune, children, Option.filter, hgone, Option.toList_some,
                List.cons_append, List.nil_append, List.cons_eq_append_iff] at hchildren ⊢
              grind
  | ifStatement test consequent alternate =>
      cases alternate with
      | none => exact ⟨after, hchildren⟩
      | some alternate =>
          cases hgone : gone alternate with
          | false => exact ⟨after, by simpa [prune, children, Option.filter, hgone] using hchildren⟩
          | true =>
              simp only [prune, children, Option.filter, hgone, Option.toList_some,
                List.cons_eq_append_iff] at hchildren ⊢
              grind
  | _ => exact ⟨after, hchildren⟩

variable {holder : Option Kind}

theorem hasRole_of_accepted (hreason : form.reason? holder = none) :
    form.hasRole .primitive = false ∧ form.hasRole .punctuation = false := by
  rw [reason?] at hreason
  split at hreason
  next => cases hreason
  next hprimitive =>
      split at hreason
      next => cases hreason
      next hpunctuation =>
          exact ⟨Bool.eq_false_iff.mpr hprimitive, Bool.eq_false_iff.mpr hpunctuation⟩

theorem reason?_of_construct {built : Construct} (hkind : form.kind = .construct built)
    (holder : Option Kind) : form.reason? holder = none := by
  cases form with
  | leaf | group => cases hkind
  | _ =>
      cases hkind
      simp [reason?, hasRole, kind, Kind.hasRole, value?]

/-- Raw literals and keywords are not accepted. -/
theorem ne_raw_of_accepted (hreason : form.reason? holder = none) {kind : LeafKind} {text : String}
    {value : Value} (hread : Normalization.readValue kind text = some value) :
    form ≠ .leaf kind (.raw text) := by
  rintro rfl
  cases kind with
  | mark => cases hread
  | _ => cases hreason

/-- Only constructs and provisional groupings play the role of an expression. -/
theorem exists_kind_of_expression (hprimitive : form.hasRole .primitive = false)
    (hrole : form.hasRole .expression = true) : ∃ built, form.kind = .construct built := by
  cases form with
  | leaf kind => rcases kind with _ | _ | (_ | _) <;> cases hrole
  | group heading =>
      cases heading with
      | provisional => cases hprimitive
      | _ => cases hrole
  | _ => exact ⟨_, rfl⟩

/-- A construct that yields a value does not wrap a single child. -/
theorem children_ne_singleton {built : Construct} (hkind : form.kind = .construct built)
    (hrole : form.hasRole .expression = true) (child : α) : form.children ≠ [child] := by
  cases form with
  | leaf | group => cases hkind
  | variableDeclaration | functionDefinition | classDefinition => cases hrole
  | functionLiteral name parameters body => cases name <;> simp [children]
  | classLiteral name constructor body => cases constructor <;> simp [children]
  | ifStatement test consequent alternate => cases hrole
  | _ => simp [children]

end Form

namespace Term

variable {ι : Type} {term reported : Term ι} {holder : Option Kind} {path : Path}
  {reason : Reason} {leftover : Leftover}

theorem leftover?_outline_eq_none_iff :
    term.outline.leftover? id holder path = none ↔
      term.form.reason? holder = none ∧ term.Fits := by
  induction term using induction generalizing holder path with
  | step term ih =>
      rw [outline_eq]
      constructor
      · intro hnone
        obtain ⟨hreason, hbelow⟩ := Tree.of_leftover?_eq_none hnone
        rw [id, Form.blank, Form.reason?_map] at hreason
        have haccepted (child : Term ι) (hchild : child ∈ term.children) :
            child.form.reason? (some term.kind) = none ∧ child.Fits := by
          obtain ⟨below, hnone⟩ := hbelow child.outline (List.mem_map_of_mem hchild)
          rw [id, Form.blank, Form.kind_map] at hnone
          exact (ih child hchild).mp hnone
        exact ⟨hreason, fits_iff.mpr ⟨fun child hchild => (haccepted child hchild).1,
          fun child hchild => (haccepted child hchild).2⟩⟩
      · rintro ⟨hreason, hfits⟩
        obtain ⟨hchildren, hbelow⟩ := fits_iff.mp hfits
        rw [Tree.leftover?]
        simp only [id, Form.blank, Form.reason?_map, Form.kind_map, hreason]
        refine Tree.leftoverAmong?_eq_none ?_
        rw [List.forall_mem_map]
        intro child hchild below
        exact (ih child hchild).mpr ⟨hchildren child hchild, hbelow child hchild⟩

/-- A node that cannot become an expression in parentheses: if its first child is an opening
parenthesis, then it is a container, or a required field of it holds one. -/
def Firm (term : Term ι) : Prop :=
  ∀ opening rest, term.children = opening :: rest → opening.kind = Normalization.leftParenKind →
    term.kind.isContainer = true ∨ ∃ field ∈ term.form.required, field.kind.isContainer = true

/-- A construct whose fields hold what they should is firm: where a field may hold anything, another
one holds a list. -/
theorem firm_of_typed (htyped : term.form.Typed Kind.isOperand form)
    (hprimitive : term.form.hasRole .primitive = false) : term.Firm := by
  intro opening rest hsplit hopening
  have hparen : Normalization.leftParenKind.isOperand = false := rfl
  rw [children] at hsplit
  rw [kind] at hopening ⊢
  cases hform : term.form with
  | leaf =>
      rw [hform] at hsplit
      cases hsplit
  | group heading items =>
      rw [hform] at hprimitive
      cases heading with
      | provisional => cases hprimitive
      | _ => exact Or.inl rfl
  | call callee arguments =>
      rw [hform] at htyped
      exact Or.inr ⟨arguments, by simp [Form.required, Form.children], by rw [kind, htyped]; rfl⟩
  | arrayIndexWrite array index value =>
      rw [hform] at htyped
      exact Or.inr ⟨index, by simp [Form.required, Form.children], by rw [kind, htyped.1]; rfl⟩
  | functionLiteral name parameters body =>
      rw [hform] at htyped hsplit
      cases name <;> simp_all [Form.Typed, Form.children]
  | _ =>
      rw [hform] at htyped hsplit
      simp_all [Form.Typed, Form.children]

/-- A node is reported below a term, at the end of the given positions: the nodes on the way to it
and the nodes before it may stand where they do. -/
inductive Rejected (reason : Reason) (reported : Term ι) :
    Option Kind → List Nat → Term ι → Prop
  | here {holder : Option Kind} (hreason : reported.form.reason? holder = some reason) :
      Rejected reason reported holder [] reported
  | inside {holder : Option Kind} {positions : List Nat} {term child : Term ι}
      {before after : List (Term ι)} (hreason : term.form.reason? holder = none)
      (hfirm : term.Firm) (hchildren : term.children = before ++ child :: after)
      (hbefore : ∀ other ∈ before, other.form.reason? (some term.kind) = none ∧ other.Fits)
      (hchild : Rejected reason reported (some term.kind) positions child) :
      Rejected reason reported holder (before.length :: positions) term

theorem Rejected.descend_eq {positions : List Nat}
    (hrejected : Rejected reason reported holder positions term) :
    descend form term positions = some reported := by
  induction hrejected with
  | here hreason => rfl
  | inside hreason hfirm hchildren hbefore hchild ih =>
      rw [descend, ← children, hchildren, List.getElem?_append_right (Nat.le_refl _), Nat.sub_self]
      exact ih

/-- Validation finds what is rejected. -/
theorem Rejected.leftover? {positions : List Nat}
    (hrejected : Rejected reason reported holder positions term) (path : Path) :
    term.outline.leftover? id holder path =
      some { kind := reported.kind, path := ⟨path.positions ++ positions⟩, reason } := by
  induction hrejected generalizing path with
  | here hreason =>
      rw [outline_eq, Tree.leftover?]
      simp only [id, Form.blank, Form.reason?_map, Form.kind_map, hreason, List.append_nil]
      rfl
  | @inside _ _ _ _ before _ hreason hfirm hchildren hbefore hchild ih =>
      rw [outline_eq, Tree.leftover?]
      simp only [id, Form.blank, Form.reason?_map, Form.kind_map, hreason]
      rw [hchildren, List.map_append, List.map_cons]
      refine Tree.leftoverAmong?_append ?_ ?_
      · rw [List.forall_mem_map]
        exact fun other hother below => leftover?_outline_eq_none_iff.mpr (hbefore other hother)
      · have hfound := ih (path.child before.length)
        rw [Path.child, List.append_assoc, List.singleton_append] at hfound
        rw [List.length_map, Nat.zero_add]
        exact hfound

/-- What is found is the root itself, or it is found in a child after everything before was
accepted. -/
theorem leftover?_outline_cases (hleftover : term.outline.leftover? id holder path = some leftover) :
    (∃ reason, term.form.reason? holder = some reason ∧
      leftover = { kind := term.kind, path, reason }) ∨
    (term.form.reason? holder = none ∧ ∃ before child after,
      term.children = before ++ child :: after ∧
        (∀ other ∈ before, other.form.reason? (some term.kind) = none ∧ other.Fits) ∧
          child.outline.leftover? id (some term.kind) (path.child before.length) =
            some leftover) := by
  rw [outline_eq, Tree.leftover?] at hleftover
  simp only [id, Form.blank, Form.reason?_map, Form.kind_map] at hleftover
  split at hleftover
  next reason hreason =>
      exact Or.inl ⟨reason, hreason, (Option.some.inj hleftover).symm⟩
  next hreason =>
      obtain ⟨before, child, after, hchildren, hbefore, hfound⟩ :=
        Tree.exists_of_leftoverAmong?_eq_some hleftover
      obtain ⟨before, rest, hsplit, rfl, hrest⟩ := List.map_eq_append_iff.mp hchildren
      obtain ⟨child, after, rfl, rfl, rfl⟩ := List.map_eq_cons_iff.mp hrest
      refine Or.inr ⟨hreason, before, child, after, hsplit, fun other hother => ?_, ?_⟩
      · obtain ⟨below, hnone⟩ := hbefore other.outline (List.mem_map_of_mem hother)
        exact leftover?_outline_eq_none_iff.mp hnone
      · rwa [List.length_map, Nat.zero_add] at hfound

/-- What validation finds in a term is rejected there. -/
theorem exists_rejected (hleftover : term.outline.leftover? id holder path = some leftover)
    (hfirm : ∀ inner ∈ term.subterms, inner.form.hasRole .primitive = false → inner.Firm) :
    ∃ reason reported positions, Rejected reason reported holder positions term ∧
      leftover = { kind := reported.kind, path := ⟨path.positions ++ positions⟩, reason } := by
  induction term using induction generalizing holder path with
  | step term ih =>
      rcases leftover?_outline_cases hleftover with
        ⟨reason, hreason, rfl⟩ | ⟨hreason, before, child, after, hsplit, hbefore, hfound⟩
      · refine ⟨reason, term, [], .here hreason, ?_⟩
        rw [List.append_nil]
      · have hmem : child ∈ term.children := by
          rw [hsplit]
          exact List.mem_append_right _ List.mem_cons_self
        obtain ⟨reason, reported, positions, hrejected, rfl⟩ := ih child hmem hfound
          (fun inner hinner => hfirm inner (mem_subterms_of_mem_children hmem hinner))
        refine ⟨reason, reported, before.length :: positions, ?_, ?_⟩
        · have hprimitive := (Form.hasRole_of_accepted hreason).1
          exact .inside hreason (hfirm term term.mem_subterms_self hprimitive) hsplit hbefore
            hrejected
        · rw [Path.child, List.append_assoc]
          rfl

/-! ## What was accepted is settled -/

/-- No rule matches what may stand where it does. -/
theorem plan?_eq_none_of_accepted (phase : Phase) (hreason : term.form.reason? holder = none)
    (hfirm : term.Firm) : phase.catalogue.plan? form term = none := by
  obtain ⟨hprimitive, hpunctuation⟩ := Form.hasRole_of_accepted hreason
  cases phase with
  | promotion =>
      apply Promotion.plan?_eq_none
      intro grouping hkind
      rw [Form.hasRole, hkind] at hprimitive
      cases hprimitive
  | normalization =>
      cases hplan : Phase.normalization.catalogue.plan? form term with
      | none => rfl
      | some planned =>
          exfalso
          obtain ⟨rule, edit⟩ := planned
          cases Normalization.step_of_plan? hplan with
          | coerce hform hread => exact Form.ne_raw_of_accepted hreason hread hform
          | strip hsubject =>
              revert hsubject hpunctuation
              rw [Form.hasRole]
              generalize term.form.kind = kind
              revert kind
              decide
          | unwrap hsubject hchildren hchild =>
              obtain ⟨built, hkind⟩ := Form.exists_kind_of_expression hprimitive hsubject
              exact Form.children_ne_singleton hkind hsubject _ hchildren
          | unparenthesize hsubject hchildren hopening hinner hclosing =>
              -- None of the three children is a container.
              rcases hfirm _ _ hchildren hopening with hcontainer | ⟨field, hfield, hcontainer⟩
              · obtain ⟨built, hkind⟩ := Form.exists_kind_of_expression hprimitive hsubject
                rw [kind, hkind] at hcontainer
                cases hcontainer
              · have hmem := Form.required_subset _ hfield
                rw [hchildren] at hmem
                simp only [List.mem_cons, List.not_mem_nil, or_false] at hmem
                rw [kind] at hcontainer
                rcases hmem with rfl | rfl | rfl
                · rw [hopening] at hcontainer
                  cases hcontainer
                · rw [Form.hasRole] at hinner
                  revert hinner hcontainer
                  generalize field.form.kind = kind
                  revert kind
                  decide
                · rw [hclosing] at hcontainer
                  cases hcontainer

theorem settled_of_accepted (phase : Phase) (hreason : term.form.reason? holder = none)
    (hfits : term.Fits) : term.Settled phase := by
  induction term using induction generalizing holder with
  | step term ih =>
      obtain ⟨hchildren, hbelow⟩ := fits_iff.mp hfits
      refine settled_iff.mpr ⟨plan?_eq_none_of_accepted phase hreason ?_, ?_⟩
      · -- It is firm for having no punctuation below it.
        intro opening rest hsplit hopening
        have hmem : opening ∈ term.children := by
          rw [hsplit]
          exact List.mem_cons_self
        have hpunctuation := (Form.hasRole_of_accepted (hchildren opening hmem)).2
        rw [Form.hasRole, ← Term.kind, hopening] at hpunctuation
        cases hpunctuation
      · exact fun child hchild => ih child hchild (hchildren child hchild) (hbelow child hchild)

/-! ## Further visits -/

/-- A node that no rule matches, neither as it is nor with its children visited, is put together
again from those children. -/
theorem visit_of_accepted (phase : Phase) (fresh : ι) (hreason : term.form.reason? holder = none)
    (hfirm : term.Firm) :
    (term.visit phase fresh).gone = false ∧
      (term.visit phase fresh).term = rebuild term.label (term.form.map (visit phase fresh)) := by
  cases phase with
  | normalization =>
      have hoffer := offer_of_none (plan?_eq_none_of_accepted .normalization hreason hfirm) fresh
      rw [visit, normalize_of_stays (by rw [hoffer]), hoffer]
      exact ⟨rfl, rfl⟩
  | promotion =>
      have hplan : Phase.promotion.catalogue.plan? form
          (rebuild term.label (term.form.map (promote fresh))) = none := by
        apply Promotion.plan?_eq_none
        intro grouping hkind
        have hprimitive := (Form.hasRole_of_accepted hreason).1
        rw [← kind, kind_rebuild] at hkind
        rw [Form.hasRole, hkind] at hprimitive
        cases hprimitive
      rw [visit, promote_eq, offer_of_none hplan]
      exact ⟨rfl, rfl⟩

/-- Containers among the required fields are there to stay. -/
theorem exists_container_rebuild {phase : Phase} {fresh : ι}
    (hcontainer : ∃ field ∈ term.form.required, field.kind.isContainer = true) :
    ∃ field ∈ (rebuild term.label (term.form.map (visit phase fresh))).form.required,
      field.kind.isContainer = true := by
  obtain ⟨field, hfield, hkind⟩ := hcontainer
  refine ⟨(field.visit phase fresh).term, ?_, ?_⟩
  · rw [rebuild, form_node, Form.required_map, Form.required_prune, Form.required_map, List.map_map]
    exact List.mem_map_of_mem hfield
  · rw [visit_of_container phase fresh hkind, kind_rebuild]
    exact hkind

/-- A visit keeps a rejection: what was accepted stays as it was, and so does the reported node. -/
theorem Rejected.visit {phase : Phase} {positions : List Nat}
    (hrejected : Rejected reason reported holder positions term)
    (hsettled : reported.Settled phase) (fresh : ι) :
    (term.visit phase fresh).gone = false ∧ (term.visit phase fresh).term.kind = term.kind ∧
      Rejected reason reported holder positions (term.visit phase fresh).term := by
  induction hrejected with
  | here hreason =>
      rw [visit_of_settled hsettled]
      exact ⟨rfl, rfl, .here hreason⟩
  | @inside holder positions term child before after hreason hfirm hchildren hbefore hchild ih =>
      obtain ⟨hstays, hvisited⟩ := visit_of_accepted phase fresh hreason hfirm
      obtain ⟨hchild_stays, hchild_kind, hchild_rejected⟩ := ih
      -- What stands before the child was accepted, so it is settled and keeps the child's position.
      have huntouched (other : Term ι) (hother : other ∈ before) :
          other.visit phase fresh = other.untouched :=
        visit_of_settled (settled_of_accepted phase (hbefore other hother).1 (hbefore other hother).2)
          fresh
      obtain ⟨after', hpruned⟩ : ∃ after',
          (term.form.prune fun child => (child.visit phase fresh).gone).children =
            before ++ child :: after' :=
        Form.exists_children_prune hchildren
          (fun other hother => by rw [huntouched other hother]; rfl) hchild_stays
      have hbefore_map : before.map (fun other => (other.visit phase fresh).term) = before := by
        refine (List.map_congr_left fun other hother => ?_).trans before.map_id
        rw [huntouched other hother]
        rfl
      have hchildren' : (rebuild term.label (term.form.map (Term.visit phase fresh))).children =
          before ++ (child.visit phase fresh).term ::
            after'.map fun other => (other.visit phase fresh).term := by
        rw [children_rebuild, hpruned, List.map_append, List.map_cons, hbefore_map]
      have hkind : (term.visit phase fresh).term.kind = term.kind := by
        rw [hvisited, kind_rebuild, kind]
      refine ⟨hstays, hkind, ?_⟩
      rw [← hkind] at hbefore hchild_rejected
      rw [hvisited] at hkind hbefore hchild_rejected ⊢
      refine .inside ?_ ?_ hchildren' hbefore hchild_rejected
      · rw [rebuild, form_node, Form.reason?_map, Form.reason?_prune, Form.reason?_map]
        exact hreason
      · intro opening rest hsplit hopening
        -- The first child was an opening parenthesis before the visit.
        have hfirst : ∃ first others, term.children = first :: others ∧
            first.kind = Normalization.leftParenKind := by
          rw [hchildren'] at hsplit
          cases before with
          | nil =>
              obtain ⟨rfl, -⟩ := List.cons.inj hsplit
              exact ⟨child, after, hchildren, hchild_kind ▸ hopening⟩
          | cons first others =>
              obtain ⟨rfl, -⟩ := List.cons.inj hsplit
              exact ⟨first, _, hchildren, hopening⟩
        obtain ⟨first, others, hsplit, hopening⟩ := hfirst
        rcases hfirm first others hsplit hopening with hcontainer | hfield
        · exact Or.inl (hkind ▸ hcontainer)
        · exact Or.inr (exists_container_rebuild hfield)

end Term

namespace Arena

variable {arena : Arena} {term : Term Id}

/-- Validation finds in the arena what it finds in the outline of the term there. -/
theorem Bears.leftover?_tree (hbears : arena.Bears term) :
    (arena.tree term.label).leftover? arena.form none {} = term.outline.leftover? id none {} := by
  rw [← Tree.leftover?_map_blank arena.form, hbears.outline_eq, Term.erase, Term.outline_map]

theorem Bears.validate_iff (hbears : arena.Bears term) {leftover : Leftover} :
    arena.validate term.label = .error (.unreduced leftover) ↔
      term.erase.outline.leftover? id none {} = some leftover := by
  rw [validate, hbears.leftover?_tree, Term.erase, Term.outline_map]
  cases term.outline.leftover? id none {} with
  | none => simp
  | some found => simp

/-- In a program that validation accepts, every node may stand where it does. -/
theorem Bears.fits_of_validate (hbears : arena.Bears term)
    (hvalid : arena.validate term.label = .ok ()) :
    term.form.reason? none = none ∧ term.Fits := by
  rw [validate, hbears.leftover?_tree] at hvalid
  have hnone : term.outline.leftover? id none {} = none := by
    cases hleftover : term.outline.leftover? id none {} with
    | none => rfl
    | some leftover =>
        rw [hleftover] at hvalid
        cases hvalid
  exact Term.leftover?_outline_eq_none_iff.mp hnone

end Arena

end AstPromotion
