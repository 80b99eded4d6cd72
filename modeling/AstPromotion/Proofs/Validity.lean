import AstPromotion.Proofs.Parsed
import AstPromotion.Proofs.Promotion.Typing

/-! # Accepted programs are well typed

Promotion leaves constructs whose fields hold what the rules ask for, except
that a grouping may stand for a value. Validation finds every grouping that is
left, so in an accepted program the fields hold values.
-/

namespace AstPromotion

namespace Tree

variable {α β : Type} {look : β → Form α}

theorem exists_of_leftoverAmong?_eq_none {holder : Kind} {path : Path} {position : Nat}
    {trees : List (Tree β)} (hnone : leftoverAmong? look holder path position trees = none) :
    ∀ tree ∈ trees, ∃ below, leftover? look (some holder) below tree = none := by
  induction trees generalizing position with
  | nil => exact fun _ hmem => nomatch hmem
  | cons tree rest ih =>
      rw [leftoverAmong?] at hnone
      split at hnone
      next => cases hnone
      next hfirst =>
          intro other hother
          rcases List.mem_cons.mp hother with rfl | hother
          · exact ⟨_, hfirst⟩
          · exact ih hnone other hother

/-- Where nothing is left over, the root may stand where it does, and so may what is below. -/
theorem of_leftover?_eq_none {holder : Option Kind} {path : Path} {label : β}
    {children : List (Tree β)} (hnone : leftover? look holder path (.node label children) = none) :
    (look label).reason? holder = none ∧
      ∀ child ∈ children, ∃ below, leftover? look (some (look label).kind) below child = none := by
  rw [leftover?] at hnone
  split at hnone
  next => cases hnone
  next hreason => exact ⟨hreason, exists_of_leftoverAmong?_eq_none hnone⟩

theorem leftoverAmong?_eq_none {holder : Kind} {path : Path} {position : Nat}
    {trees : List (Tree β)}
    (hnone : ∀ tree ∈ trees, ∀ below, leftover? look (some holder) below tree = none) :
    leftoverAmong? look holder path position trees = none := by
  induction trees generalizing position with
  | nil => rfl
  | cons tree rest ih =>
      rw [leftoverAmong?, hnone tree List.mem_cons_self]
      exact ih fun other hother => hnone other (List.mem_cons_of_mem _ hother)

end Tree

theorem Form.reason?_map {α β : Type} (f : α → β) (form : Form α) (holder : Option Kind) :
    (form.map f).reason? holder = form.reason? holder := by
  rw [reason?, reason?, value?_map]
  simp only [hasRole, kind_map]
  rfl

/-- Every node below the root may stand below its holder. -/
def Term.Fits {ι : Type} (term : Term ι) : Prop :=
  ∀ inner ∈ term.subterms, ∀ child ∈ inner.children, child.form.reason? (some inner.kind) = none

theorem Term.fits_iff {ι : Type} {term : Term ι} :
    term.Fits ↔ (∀ child ∈ term.children, child.form.reason? (some term.kind) = none) ∧
      ∀ child ∈ term.children, child.Fits :=
  forall_subterms_iff

theorem Term.fits_map {ι κ : Type} {f : ι → κ} {term : Term ι} :
    (term.map f).Fits ↔ term.Fits := by
  rw [Fits, Fits, subterms_map, List.forall_mem_map]
  simp only [children_map, List.forall_mem_map, form_map, Form.reason?_map, kind_map]

namespace Arena

variable {arena : Arena} {root : Id}

/-- Where every node may stand below its holder, nothing is left over. -/
theorem leftover?_eq_none {term : Term Id} (hholds : arena.Holds term) (hfits : term.Fits)
    {holder : Option Kind} (hroot : term.form.reason? holder = none) (depth : Nat) (path : Path) :
    (arena.unfold depth term.label).leftover? arena.form holder path = none := by
  have hform : (arena.form term.label).reason? holder = none := by
    rw [hholds.form_eq, Form.reason?_map, hroot]
  induction depth generalizing term holder path with
  | zero =>
      rw [unfold, Tree.leftover?]
      simp only [hform]
      rfl
  | succ depth ih =>
      obtain ⟨hchildren, hbelow⟩ := Term.fits_iff.mp hfits
      rw [unfold, Tree.leftover?]
      simp only [hform]
      refine Tree.leftoverAmong?_eq_none ?_
      rw [hholds.children_eq, List.map_map, List.forall_mem_map]
      intro child hchild below
      have hholds' := (holds_iff.mp hholds).2 child hchild
      have hkind : (arena.form term.label).kind = term.kind := hholds.kind_eq
      have hroot' := hchildren child hchild
      rw [hkind]
      refine ih hholds' (hbelow child hchild) hroot' below ?_
      rw [hholds'.form_eq, Form.reason?_map, hroot']

theorem validate_eq_ok {term : Term Id} (hholds : arena.Holds term) (hfits : term.Fits)
    (hroot : term.form.reason? none = none) : arena.validate term.label = .ok () := by
  rw [validate, tree, leftover?_eq_none hholds hfits hroot]

/-- Every node of a term in which nothing is left over may stand where it does. -/
theorem reason?_eq_none {term : Term Id} (hholds : arena.Holds term) {depth : Nat}
    (hdepth : term.labels.length ≤ depth) {holder : Option Kind} {path : Path}
    (hnone : (arena.unfold depth term.label).leftover? arena.form holder path = none) :
    ∀ inner ∈ term.subterms, ∃ holder, (arena.form inner.label).reason? holder = none := by
  induction depth generalizing term holder path with
  | zero =>
      rw [Term.labels_eq] at hdepth
      cases hdepth
  | succ depth ih =>
      rw [unfold] at hnone
      obtain ⟨hroot, hbelow⟩ := Tree.of_leftover?_eq_none hnone
      refine Term.forall_subterms_iff.mpr ⟨⟨holder, hroot⟩, ?_⟩
      intro child hchild
      have hmem : arena.unfold depth child.label ∈
          (arena.children term.label).map (arena.unfold depth) := by
        rw [hholds.children_eq]
        exact List.mem_map_of_mem (List.mem_map_of_mem hchild)
      obtain ⟨below, hchild_none⟩ := hbelow _ hmem
      exact ih ((holds_iff.mp hholds).2 child hchild) (Nat.le_of_lt_succ (Nat.lt_of_lt_of_le
        (Term.length_labels_lt_of_mem_children hchild) hdepth)) hchild_none

end Arena

/-- What may stand in an accepted program: a container, a construct, a literal that was read, or an
operator. -/
def Form.Admissible {α : Type} (form : Form α) : Prop :=
  form.kind.isContainer = true ∨ (∃ built, form.kind = .construct built) ∨
    (∃ literal value, form = .leaf (.literal literal) value ∧ value.isRaw = false) ∨
      ∃ sign value, form = .leaf (.mark (.operator sign)) value

theorem Form.admissible_of_reason? {α : Type} {form : Form α} {holder : Option Kind}
    (hreason : form.reason? holder = none) : form.Admissible := by
  cases form with
  | group heading items =>
      cases heading with
      | provisional grouping => cases hreason
      | _ => exact Or.inl rfl
  | leaf kind value =>
      rcases kind with literal | _ | (sign | sign)
      · refine Or.inr (Or.inr (Or.inl ⟨literal, value, rfl, ?_⟩))
        cases hraw : value.isRaw with
        | false => rfl
        | true => simp [reason?, hasRole, kind, Kind.hasRole, value?, hraw] at hreason
      · cases hreason
      · cases hreason
      · exact Or.inr (Or.inr (Or.inr ⟨sign, value, rfl⟩))
  | _ => exact Or.inr (Or.inl ⟨_, rfl⟩)

/-- In an accepted program no grouping is left to stand for a value. -/
theorem Form.isValue_of_admissible {α : Type} {form : Form α} (hadmissible : form.Admissible)
    (hoperand : form.kind.isOperand = true) : form.kind.isValue = true := by
  revert hoperand
  rcases hadmissible with hcontainer | ⟨built, hkind⟩ | ⟨literal, value, rfl, -⟩ | ⟨sign, value, rfl⟩
  · revert hcontainer
    generalize form.kind = kind
    revert kind
    decide
  · rw [hkind]
    cases built <;> decide
  · exact fun _ => rfl
  · intro hoperand
    cases hoperand

namespace Arena

/-- Every node of an accepted program is admissible, and the fields of every construct in it hold
what they should. -/
structure WellTyped (arena : Arena) (root : Id) : Prop where
  admissible : ∀ id, arena.Reaches root id → (arena.form id).Admissible
  typed : ∀ id, arena.Reaches root id → (arena.form id).Typed Kind.isValue arena.form

theorem wellTyped_of_bears {arena : Arena} {term : Term Id} (hbears : arena.Bears term)
    (htyped : ∀ inner ∈ term.subterms, inner.form.Typed Kind.isOperand Term.form)
    (hvalid : arena.validate term.label = .ok ()) : arena.WellTyped term.label := by
  have hnone : (arena.tree term.label).leftover? arena.form none {} = none := by
    rw [validate] at hvalid
    split at hvalid
    next => cases hvalid
    next hnone => exact hnone
  have hadmissible : ∀ id, arena.Reaches term.label id → (arena.form id).Admissible := by
    intro id hreaches
    obtain ⟨inner, hinner, rfl⟩ := List.mem_map.mp (hbears.reaches_iff.mp hreaches)
    obtain ⟨holder, hreason⟩ := reason?_eq_none hbears.holds hbears.length_le hnone inner hinner
    exact Form.admissible_of_reason? hreason
  refine ⟨hadmissible, ?_⟩
  intro id hreaches
  obtain ⟨inner, hinner, rfl⟩ := List.mem_map.mp (hbears.reaches_iff.mp hreaches)
  refine ((hbears.holds.views.typed_iff hinner Kind.isOperand).mpr (htyped inner hinner)).mono ?_
  intro child hchild hoperand
  exact Form.isValue_of_admissible (hadmissible child (hreaches.child hchild)) hoperand

/-- What a visit of promotion makes of a shallow term is typed. -/
theorem typed_of_promote_eq {middle result : Term Id} (hshallow : middle.erase.Shallow)
    (hterm : (middle.erase.promote ()).term = result.erase)
    (hstays : (middle.erase.promote ()).gone = false) :
    ∀ inner ∈ result.subterms, inner.form.Typed Kind.isOperand Term.form := by
  have htyped := Promotion.typed_promote hshallow hstays
  rw [hterm, Term.erase, Term.subterms_map, List.forall_mem_map] at htyped
  intro inner hinner
  exact ((Term.views_map fun _ => ()).typed_iff trivial Kind.isOperand).mp (htyped inner hinner)

/-- The terms that the two phases leave of a program that was read and accepted are typed. -/
theorem BearsSketch.typed_of_settled {arena : Arena} {root : Id} {file : String} {sketch : Sketch}
    {term : Term Id} {config : Config} (hsketch : arena.BearsSketch root file sketch term)
    (hpromoted : (arena.promoted config root).settled = true) :
    ∃ result : Term Id, result.label = root ∧ (arena.promoted config root).arena.Bears result ∧
      ∀ inner ∈ result.subterms, inner.form.Typed Kind.isOperand Term.form := by
  obtain ⟨middle, result, hran, hresult, hterm, hstays⟩ := hsketch.exists_promoted hpromoted
  have hshallow : middle.erase.Shallow := Term.shallow_map.mpr (hran.shallow hsketch.shallow)
  exact ⟨result, hresult.label, hresult.bears, typed_of_promote_eq hshallow hterm hstays⟩

end Arena

/-- Acceptance is sound: whatever the text, if optimization with validation succeeds, then every
node that can be reached from the root is admissible and every construct is well typed. -/
theorem wellTyped_of_optimizeSource {file source : String} {config : Config} {program : Optimized}
    (hvalidate : config.validate = true)
    (hok : (optimizeSource file source config).1 = .ok program) :
    program.arena.WellTyped program.root := by
  rw [optimizeSource] at hok
  split at hok
  next => cases hok
  next root arena hparse =>
      dsimp only at hok
      split at hok
      next report hreport =>
          cases hok
          obtain ⟨sketch, term, -, hsketch⟩ :=
            Arena.exists_bearsSketch hparse (Arena.kind_of_optimize_eq_ok hreport)
          obtain ⟨-, hpromoted, harena, hvalid⟩ := hsketch.program.of_optimize_eq_ok hreport
          obtain ⟨result, rfl, hbears, htyped⟩ := hsketch.typed_of_settled hpromoted
          rw [harena]
          exact Arena.wellTyped_of_bears hbears htyped (hvalid hvalidate)
      next => cases hok

/-- A product of a member and a negation in parentheses. -/
def nestedProduct : String :=
  "(Program (Expression (MemberAccess f '.' g) '*' (Expression '(' (Expression '-' b) ')')))"

/-- The kinds in what is left of the product: both factors are constructs with operands of their own,
and the parentheses are gone. -/
def nestedProductKinds : List Kind :=
  [.group .program, .construct .binaryExpression, .construct .memberExpression,
    .leaf (.literal .identifier), .leaf (.literal .identifier), .leaf (.mark (.operator .times)),
    .construct .unaryExpression, .leaf (.mark (.operator .minus)), .leaf (.literal .identifier)]

theorem wellTyped_of_optimizeSource_nestedProduct :
    ∃ program, (optimizeSource "main" nestedProduct).1 = .ok program ∧
      (program.arena.tree program.root).preorder.map program.arena.kind = nestedProductKinds ∧
        program.arena.WellTyped program.root := by
  obtain ⟨program, hok, hkinds⟩ : ∃ program,
      (optimizeSource "main" nestedProduct).1 = .ok program ∧
        (program.arena.tree program.root).preorder.map program.arena.kind = nestedProductKinds :=
    exists_of_any_toOption (by decide +kernel)
  exact ⟨program, hok, hkinds, wellTyped_of_optimizeSource rfl hok⟩

end AstPromotion
