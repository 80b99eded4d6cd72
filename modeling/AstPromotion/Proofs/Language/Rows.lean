import AstPromotion.Proofs.Language.Syntax
import AstPromotion.Proofs.Normalization.Drafts
import AstPromotion.Proofs.Planting
import AstPromotion.Proofs.Promotion.Precedence

/-! # Rows

Sketches in a row, what normalization leaves of them, and what promotion makes of
that. Rows are put together from left to right, and a group around a row is a row
of its own.
-/

namespace AstPromotion.Language

open Normalization (Drafts leftParenKind rightParenKind isSeparator readValue)
open Promotion (Step)
open Term (node remaining)

/-- Sketches in a row with the terms that normalization leaves of them and the trees that promotion
makes of those. -/
structure Row (file : String) (sketches : List Sketch) (plains asts : List (Term Unit)) : Prop where
  proper : ∀ token ∈ Sketch.tokensEach sketches, token.Proper
  drafts : Drafts (sketches.map (Sketch.toTerm file)) plains
  settled : ∀ plain ∈ plains, plain.Settled .normalization
  promoted : remaining (plains.map (Term.promote ())) = asts

/-! ## One node -/

/-- Nothing is done to a leaf that has been read. -/
theorem settled_leaf {kind : LeafKind} {value : Value} (hsmooth : ¬ (leaf kind value).Rough) :
    (leaf kind value).Settled .normalization := by
  refine Term.settled_iff.mpr ⟨?_, fun _ hchild => nomatch hchild⟩
  cases hplan : Phase.normalization.catalogue.plan? Term.form (leaf kind value) with
  | none => rfl
  | some planned =>
      obtain ⟨rule, edit⟩ := planned
      cases Normalization.step_of_plan? hplan with
      | coerce hform hread => exact absurd (Or.inl ⟨_, _, _, hform, hread⟩) hsmooth
      | strip hsubject => exact absurd (Or.inr hsubject) hsmooth
      | unwrap hsubject hchildren => cases hchildren
      | unparenthesize hsubject hchildren => cases hchildren

/-- A group stays if it is no expression, or if it has several items and no parenthesis first. -/
theorem settled_list {heading : Heading} {items : List (Term Unit)}
    (hkept : (Kind.group heading.kind).hasRole .expression = false ∨
      ∃ first second rest, items = first :: second :: rest ∧ first.kind ≠ leftParenKind)
    (hitems : ∀ item ∈ items, item.Settled .normalization) :
    (list heading items).Settled .normalization := by
  refine Term.settled_iff.mpr ⟨?_, hitems⟩
  cases hplan : Phase.normalization.catalogue.plan? Term.form (list heading items) with
  | none => rfl
  | some planned =>
      obtain ⟨rule, edit⟩ := planned
      exfalso
      have hrole {others : List (Term Unit)} (hsubject : (list heading items).form.hasRole .expression)
          (hchildren : (list heading items).form.children = others) :
          ∃ first second rest, others = first :: second :: rest ∧ first.kind ≠ leftParenKind := by
        rcases hkept with hrole | hitems
        · exact absurd hsubject (Bool.eq_false_iff.mp hrole)
        · rwa [← hchildren]
      cases Normalization.step_of_plan? hplan with
      | coerce hform hread => cases hform
      | strip hsubject => cases heading <;> cases hsubject
      | unwrap hsubject hchildren =>
          obtain ⟨_, _, _, heq, -⟩ := hrole hsubject hchildren
          cases heq
      | unparenthesize hsubject hchildren hopening =>
          obtain ⟨_, _, _, heq, hfirst⟩ := hrole hsubject hchildren
          cases heq
          exact hfirst hopening

section Offers

variable {subject : Term Unit}

/-- What a step does is what becomes of an offered term. -/
theorem exists_offer_eq {edit : Edit (Term Unit)} (hstep : Step Term.form subject edit)
    (hlift : ∀ child, edit = .lift child →
      child.kind ≠ .construct .functionLiteral ∧ child.kind ≠ .construct .classLiteral) :
    ∃ events, subject.offer .promotion () =
      { term := (subject.enact () edit).1, gone := (subject.enact () edit).2 == .removed, events } := by
  obtain ⟨rule, hplan⟩ : ∃ rule,
      Phase.promotion.catalogue.plan? Term.form subject = some (rule, edit) :=
    Promotion.exists_plan?_of_step hstep hlift
  exact ⟨_, Term.offer_of_some hplan ()⟩

theorem remaining_of_build {form : Form (Term Unit)}
    (hstep : Step Term.form subject (.build form none)) :
    remaining [subject.offer .promotion ()] = [node () form] := by
  obtain ⟨events, hoffer⟩ := exists_offer_eq hstep fun _ heq => nomatch heq
  rw [hoffer]
  rfl

theorem remaining_of_lift {child : Term Unit} (hstep : Step Term.form subject (.lift child))
    (hfunction : child.kind ≠ .construct .functionLiteral)
    (hclass : child.kind ≠ .construct .classLiteral) :
    remaining [subject.offer .promotion ()] = [child] := by
  obtain ⟨events, hoffer⟩ := exists_offer_eq hstep fun _ heq => by
    cases heq
    exact ⟨hfunction, hclass⟩
  rw [hoffer]
  rfl

theorem remaining_of_remove (hstep : Step Term.form subject .remove) :
    remaining [subject.offer .promotion ()] = [] := by
  obtain ⟨events, hoffer⟩ := exists_offer_eq hstep fun _ heq => nomatch heq
  rw [hoffer]
  rfl

theorem remaining_of_container (hkind : subject.kind.isContainer = true) :
    remaining [subject.offer .promotion ()] = [subject] := by
  rw [Term.offer_of_container _ _ hkind]
  rfl

/-- Among statements that are no function literals, the constructor is the one that is defined. -/
theorem takeConstructor?_eq {statements : List (Term Unit)}
    (hstatements : ∀ statement ∈ statements, statement.kind ≠ .construct .functionLiteral) :
    takeConstructor? Term.form statements =
      (statements.findSome? definedConstructor?).map fun function =>
        (function, statements.eraseP fun statement => (definedConstructor? statement).isSome) := by
  induction statements with
  | nil => rfl
  | cons statement rest ih =>
      have hrest := ih fun other hother => hstatements other (List.mem_cons_of_mem _ hother)
      have hstatement : constructorOf? Term.form statement = definedConstructor? statement := by
        have hkind := hstatements statement List.mem_cons_self
        rw [Term.kind] at hkind
        unfold constructorOf? definedConstructor?
        cases hform : statement.form with
        | functionDefinition function =>
            obtain ⟨label, form⟩ := function
            cases form with
            | functionLiteral name parameters body =>
                cases name <;> simp [isFunctionNamed, Option.filter_some]
            | _ => simp [isFunctionNamed, Option.filter_some]
        | functionLiteral => exact absurd (by rw [hform]; rfl) hkind
        | _ => rfl
      rw [takeConstructor?, hstatement, hrest, List.findSome?_cons, List.eraseP_cons]
      cases definedConstructor? statement with
      | some function => rfl
      | none => cases rest.findSome? definedConstructor? <;> rfl

theorem remaining_of_class (name : Term Unit) {statements : List (Term Unit)}
    (hstatements : ∀ statement ∈ statements, statement.kind ≠ .construct .functionLiteral)
    (hstep : Step Term.form subject (planClass Term.form name (list .block statements))) :
    remaining [subject.offer .promotion ()] = [classLiteral name statements] := by
  have hchildren : (list .block statements).form.children = statements := rfl
  obtain ⟨events, hoffer⟩ := exists_offer_eq hstep fun _ heq => by
    rw [planClass] at heq
    split at heq <;> cases heq
  rw [hoffer, planClass, hchildren,
    takeConstructor?_eq hstatements, classLiteral]
  cases hfound : statements.findSome? definedConstructor? with
  | some function => rfl
  | none =>
      have hkept : statements.eraseP (fun statement => (definedConstructor? statement).isSome) =
          statements := by
        apply List.eraseP_of_forall_not
        intro statement hstatement
        rw [List.findSome?_eq_none_iff.mp hfound statement hstatement]
        exact Bool.false_ne_true
      rw [hkept]
      rfl

theorem promote_list (heading : Heading) (items : List (Term Unit)) :
    ((list heading items).promote ()).term =
        ((list heading (remaining (items.map (Term.promote ())))).offer .promotion ()).term ∧
      ((list heading items).promote ()).gone =
        ((list heading (remaining (items.map (Term.promote ())))).offer .promotion ()).gone :=
  Term.promote_of_group rfl ()

end Offers

namespace Row

variable {file : String} {sketches sketches' : List Sketch} {plains plains' asts asts' : List (Term Unit)}

/-! ## Rows of nothing, of two rows and of one leaf -/

theorem nil : Row file [] [] [] where
  proper := fun _ htoken => nomatch htoken
  drafts := .nil
  settled := fun _ hplain => nomatch hplain
  promoted := rfl

theorem append (hfirst : Row file sketches plains asts) (hsecond : Row file sketches' plains' asts') :
    Row file (sketches ++ sketches') (plains ++ plains') (asts ++ asts') where
  proper := by
    rw [Sketch.tokensEach_eq_flatMap, List.flatMap_append, ← Sketch.tokensEach_eq_flatMap,
      ← Sketch.tokensEach_eq_flatMap]
    exact List.forall_mem_append.mpr ⟨hfirst.proper, hsecond.proper⟩
  drafts := by
    rw [List.map_append]
    exact hfirst.drafts.append hsecond.drafts
  settled := List.forall_mem_append.mpr ⟨hfirst.settled, hsecond.settled⟩
  promoted := by
    rw [List.map_append, remaining, List.filter_append, List.map_append, ← remaining, ← remaining,
      hfirst.promoted, hsecond.promoted]

theorem promoted_leaf (kind : LeafKind) (value : Value) :
    remaining ([leaf kind value].map (Term.promote ())) = [leaf kind value] := by
  rw [List.map_singleton, Term.promote_of_leaf rfl]
  rfl

theorem separator {sign : Punctuation}
    (hseparator : isSeparator (.leaf (.mark (.punctuation sign))) = true) :
    Row file [Language.sign sign] [] [] where
  proper := fun token htoken => by
    rw [List.mem_singleton.mp htoken]
    exact True.intro
  drafts := .separator hseparator .nil
  settled := fun _ hplain => nomatch hplain
  promoted := rfl

theorem mark {mark : Mark} (hkept : isSeparator (.leaf (.mark mark)) = false) :
    Row file [.leaf (.mark mark)] [leaf (.mark mark) (.raw mark.spelling)]
      [leaf (.mark mark) (.raw mark.spelling)] := by
  have hsmooth : ¬ (leaf (.mark mark) (.raw mark.spelling)).Rough := by
    rintro (⟨_, _, _, hform, hread⟩ | hseparator)
    · cases hform
      cases hread
    · exact absurd hseparator (Bool.eq_false_iff.mp hkept)
  refine ⟨?_, .leaf hsmooth .nil, ?_, promoted_leaf _ _⟩
  · intro token htoken
    rw [List.mem_singleton.mp htoken]
    exact True.intro
  · rw [List.forall_mem_singleton]
    exact settled_leaf hsmooth

theorem read (token : Token) {value : Value} (hproper : token.Proper)
    (hread : readValue token.kind token.raw = some value) :
    Row file [.leaf token] [leaf token.kind value] [leaf token.kind value] := by
  refine ⟨?_, .unread hread .nil, ?_, promoted_leaf _ _⟩
  · intro token htoken
    rwa [List.mem_singleton.mp htoken]
  · rw [List.forall_mem_singleton]
    exact settled_leaf (Normalization.not_rough_of_readValue hread ())

/-! ## Groups -/

/-- A group that normalization keeps, and what promotion makes of it. -/
theorem group (kind : GroupKind) {results : List (Term Unit)} (hrow : Row file sketches plains asts)
    (hkept : (Kind.group (kind.heading file).kind).hasRole .expression = false ∨
      ∃ first second rest, plains = first :: second :: rest ∧ first.kind ≠ leftParenKind)
    (hresult : remaining [(list (kind.heading file) asts).offer .promotion ()] = results) :
    Row file [.group kind sketches] [list (kind.heading file) plains] results where
  proper := by
    rw [Sketch.tokensEach, Sketch.tokens, Sketch.tokensEach, List.append_nil]
    exact hrow.proper
  drafts := by
    rw [List.map_singleton, Sketch.toTerm_group]
    exact .group hrow.drafts .nil
  settled := by
    rw [List.forall_mem_singleton]
    exact settled_list hkept hrow.settled
  promoted := by
    have hpromoted := promote_list (kind.heading file) plains
    rw [hrow.promoted] at hpromoted
    rw [← hresult, List.map_singleton, Term.remaining_cons, Term.remaining_cons, hpromoted.1,
      hpromoted.2]

/-- Containers are kept by both phases. -/
theorem container (kind : GroupKind) (hrow : Row file sketches plains asts)
    (hkind : (Kind.group (kind.heading file).kind).isContainer = true) :
    Row file [.group kind sketches] [list (kind.heading file) plains]
      [list (kind.heading file) asts] := by
  refine hrow.group kind (Or.inl ?_) (remaining_of_container hkind)
  cases kind with
  | provisional => cases hkind
  | _ => rfl

/-- Parentheses around an expression are taken off. -/
theorem parenthesized {sketch : Sketch} {plain : Term Unit} (hrow : Row file [sketch] [plain] asts)
    (hplain : plain.form.hasRole .expression = true) :
    Row file [grouping .expression [sign .leftParen, sketch, sign .rightParen]] [plain] asts where
  proper := by
    have hproper := hrow.proper
    simp only [Sketch.tokensEach, Sketch.tokens, List.append_nil] at hproper ⊢
    simp only [List.forall_mem_append, List.forall_mem_singleton]
    exact ⟨True.intro, hproper, True.intro⟩
  drafts := by
    rw [List.map_singleton, Sketch.toTerm_group]
    exact .parenthesized rfl rfl rfl hplain hrow.drafts .nil
  settled := hrow.settled
  promoted := hrow.promoted

/-! ## Items with commas between them -/

theorem exists_of_cons {sketch : Sketch} (hrow : Row file (sketch :: sketches) plains asts) :
    ∃ first rest firstAsts restAsts, plains = first ++ rest ∧ asts = firstAsts ++ restAsts ∧
      Row file [sketch] first firstAsts ∧ Row file sketches rest restAsts := by
  have hproper := hrow.proper
  have hsettled := hrow.settled
  rw [Sketch.tokensEach, List.forall_mem_append] at hproper
  obtain ⟨first, rest, rfl, hfirst, hrest⟩ := hrow.drafts.exists_append
  rw [List.forall_mem_append] at hsettled
  refine ⟨first, rest, _, _, rfl, ?_, ⟨?_, hfirst, hsettled.1, rfl⟩,
    ⟨hproper.2, hrest, hsettled.2, rfl⟩⟩
  · rw [← hrow.promoted, List.map_append, remaining, List.filter_append, List.map_append,
      ← remaining, ← remaining]
  · rw [Sketch.tokensEach, Sketch.tokensEach, List.append_nil]
    exact hproper.1

theorem comma : Row file [sign .comma] [] [] :=
  separator rfl

/-- Commas between the items change nothing. -/
theorem separated (hrow : Row file sketches plains asts) :
    Row file (Language.separated sketches) plains asts := by
  induction sketches generalizing plains asts with
  | nil => exact hrow
  | cons sketch rest ih =>
      cases rest with
      | nil => exact hrow
      | cons next others =>
          obtain ⟨first, rest, firstAsts, restAsts, rfl, rfl, hfirst, hrest⟩ := hrow.exists_of_cons
          exact hfirst.append (comma.append (ih hrest))

end Row

end AstPromotion.Language
