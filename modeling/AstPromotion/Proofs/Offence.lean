import AstPromotion.Proofs.Rejection

/-! # The first offence

A node offends if it cannot be handed to the next stage where it stands. A tree
is valid if no node of it offends; otherwise the first offending node in
preorder is reported, and the text of its path tells it from every other node.
-/

namespace AstPromotion

/-! ## Displayed paths -/

namespace Path

/-- What follows the slashes of the text of a path. -/
def segments (path : Path) : List (List Char) :=
  match path.positions with
  | [] => [[]]
  | positions => positions.map (Nat.toDigits 10)

theorem intercalate_slash (first : List Char) (rest : List (List Char)) :
    ['/'].intercalate (first :: rest) = first ++ rest.flatMap ('/' :: ·) := by
  induction rest generalizing first with
  | nil => rw [List.intercalate_singleton, List.flatMap_nil, List.append_nil]
  | cons second rest ih =>
      rw [List.intercalate_cons_cons, ih, List.flatMap_cons, List.append_assoc,
        List.singleton_append, List.cons_append]

theorem toList_text (path : Path) : path.text.toList = ['/'].intercalate ([] :: path.segments) := by
  obtain ⟨positions⟩ := path
  rw [intercalate_slash, List.nil_append]
  cases positions with
  | nil => rfl
  | cons position rest =>
      have hdigits (position : Nat) :
          ("/" ++ toString position).toList = '/' :: Nat.toDigits 10 position := by
        rw [String.toList_append, Nat.toString_eq_repr, Nat.toList_repr]
        rfl
      simp only [text, segments, String.toList_join, List.flatMap_map, hdigits]

theorem slash_not_mem_segments (path : Path) : ∀ segment ∈ [] :: path.segments, '/' ∉ segment := by
  have hdigits (position : Nat) : '/' ∉ Nat.toDigits 10 position := by
    intro hslash
    have hdigit := Nat.isDigit_of_mem_toDigits (by decide) (by decide) hslash
    revert hdigit
    decide
  obtain ⟨positions⟩ := path
  cases positions with
  | nil => decide
  | cons position rest => simp [segments, hdigits]

theorem segments_injective : Function.Injective segments := by
  rintro ⟨positions⟩ ⟨others⟩ hsegments
  have hdigits : Function.Injective (Nat.toDigits 10) :=
    Function.LeftInverse.injective (g := fun digits => Nat.ofDigitChars 10 digits 0)
      fun position => Nat.ofDigitChars_toDigits (by decide) (by decide)
  cases positions with
  | nil =>
      cases others with
      | nil => rfl
      | cons other rest => exact absurd (List.cons.inj hsegments).1.symm Nat.toDigits_ne_nil
  | cons position rest =>
      cases others with
      | nil => exact absurd (List.cons.inj hsegments).1 Nat.toDigits_ne_nil
      | cons other rest' => exact congrArg Path.mk (hdigits.list_map hsegments)

/-- Different paths are displayed differently. -/
theorem text_injective : Function.Injective text := by
  intro path other htext
  apply segments_injective
  have hlist := congrArg String.toList htext
  rw [toList_text, toList_text] at hlist
  have hsplit := congrArg (List.splitOn '/') hlist
  rw [List.splitOn_intercalate '/' path.slash_not_mem_segments (List.cons_ne_nil _ _),
    List.splitOn_intercalate '/' other.slash_not_mem_segments (List.cons_ne_nil _ _)] at hsplit
  exact (List.cons.inj hsplit).2

end Path

/-! ## Nodes with their holders -/

theorem Kind.holdsOperator_eq_false_iff {kind : Kind} :
    kind.holdsOperator = false ↔ kind ≠ .construct .unaryExpression ∧
      kind ≠ .construct .binaryExpression ∧ kind ≠ .construct .comparisonExpression := by
  revert kind
  decide

/-- When a form cannot stand below a holder, one reason for it at a time. -/
theorem Form.reason?_eq_some_iff {α : Type} {form : Form α} {holder : Option Kind}
    {reason : Reason} :
    form.reason? holder = some reason ↔
      match reason with
      | .provisional => form.hasRole .primitive = true
      | .punctuation => form.hasRole .punctuation = true
      | .keyword => form.kind = .leaf .keyword
      | .operator => form.hasRole .operator = true ∧ holder.any Kind.holdsOperator = false
      | .rawLiteral => form.hasRole .literalValue = true ∧ ∃ text, form.value? = some (.raw text) := by
  cases form with
  | leaf kind value =>
      rcases kind with literal | _ | (sign | sign)
      · cases value <;> cases reason <;>
          simp [reason?, hasRole, kind, Kind.hasRole, value?, Value.isRaw]
      · cases reason <;> simp [reason?, hasRole, kind, Kind.hasRole]
      · cases reason <;> simp [reason?, hasRole, kind, Kind.hasRole]
      · cases reason <;> simp [reason?, hasRole, kind, Kind.hasRole]
  | group heading items =>
      cases heading <;> cases reason <;>
        simp [reason?, hasRole, kind, Heading.kind, Kind.hasRole, value?]
  | _ => cases reason <;> simp [reason?, hasRole, kind, Kind.hasRole, value?]

namespace Term

variable {ι : Type} {term inner : Term ι} {holder place : Option Kind} {path : Path}
  {leftover : Leftover}

/-- The nodes of a term in preorder, each with the kind of its holder. -/
def placed (holder : Option Kind) (term : Term ι) : List (Option Kind × Term ι) :=
  (holder, term) :: term.children.attach.flatMap fun child => placed (some term.kind) child.1
termination_by term
decreasing_by exact sizeOf_lt_of_mem child.2

theorem placed_eq (holder : Option Kind) (term : Term ι) :
    term.placed holder =
      (holder, term) :: term.children.flatMap (placed (some term.kind)) := by
  rw [placed, List.flatMap_def, List.flatMap_def, List.attach_map_val]

theorem map_snd_placed (holder : Option Kind) (term : Term ι) :
    (term.placed holder).map Prod.snd = term.subterms := by
  induction term using induction generalizing holder with
  | step term ih =>
      rw [placed_eq, subterms_eq, List.map_cons, List.map_flatMap]
      congr 1
      exact List.flatMap_congr fun child hchild => ih child hchild (some term.kind)

theorem mem_placed_iff :
    (place, inner) ∈ term.placed holder ↔ (place = holder ∧ inner = term) ∨
      ∃ outer ∈ term.subterms, inner ∈ outer.children ∧ place = some outer.kind := by
  induction term using induction generalizing holder with
  | step term ih =>
      rw [placed_eq, List.mem_cons, List.mem_flatMap, Prod.mk.injEq]
      apply or_congr_right
      constructor
      · rintro ⟨child, hchild, hmem⟩
        rcases (ih child hchild).mp hmem with ⟨rfl, rfl⟩ | ⟨outer, houter, hinner⟩
        · exact ⟨term, term.mem_subterms_self, hchild, rfl⟩
        · exact ⟨outer, mem_subterms_of_mem_children hchild houter, hinner⟩
      · rintro ⟨outer, houter, hinner, rfl⟩
        rcases mem_subterms_iff.mp houter with rfl | ⟨child, hchild, hmem⟩
        · exact ⟨inner, hinner, (ih inner hinner).mpr (Or.inl ⟨rfl, rfl⟩)⟩
        · exact ⟨child, hchild, (ih child hchild).mpr (Or.inr ⟨outer, hmem, hinner, rfl⟩)⟩

theorem mem_subterms_of_mem_placed (hplaced : (place, inner) ∈ term.placed holder) :
    inner ∈ term.subterms := by
  rw [← map_snd_placed holder]
  exact List.mem_map_of_mem hplaced

/-- Every node of what was accepted may stand where it does. -/
theorem reason?_placed (hreason : term.form.reason? holder = none) (hfits : term.Fits) :
    ∀ entry ∈ term.placed holder, entry.2.form.reason? entry.1 = none := by
  rintro ⟨place, inner⟩ hentry
  rcases mem_placed_iff.mp hentry with ⟨rfl, rfl⟩ | ⟨outer, houter, hinner, rfl⟩
  · exact hreason
  · exact hfits outer houter inner hinner

/-- What is found is the first node in preorder that cannot stand where it does, and the path leads
to it. -/
theorem exists_first (hleftover : term.outline.leftover? id holder path = some leftover) :
    ∃ before place found after positions,
      term.placed holder = before ++ (place, found) :: after ∧
        (∀ entry ∈ before, entry.2.form.reason? entry.1 = none) ∧
          found.form.reason? place = some leftover.reason ∧ found.kind = leftover.kind ∧
            leftover.path.positions = path.positions ++ positions ∧
              descend form term positions = some found := by
  induction term using induction generalizing holder path with
  | step term ih =>
      rw [placed_eq]
      rcases leftover?_outline_cases hleftover with
        ⟨reason, hreason, rfl⟩ | ⟨hreason, before, child, after, hsplit, hbefore, hfound⟩
      · exact ⟨[], holder, term, _, [], rfl, List.forall_mem_nil _, hreason, rfl,
          (List.append_nil _).symm, rfl⟩
      · have hmem : child ∈ term.children := by
          rw [hsplit]
          exact List.mem_append_right _ List.mem_cons_self
        obtain ⟨earlier, place, found, later, positions, hplaced, hearlier, hplace, hkind, hpath,
          hdescend⟩ := ih child hmem hfound
        refine ⟨(holder, term) :: before.flatMap (placed (some term.kind)) ++ earlier, place, found,
          later ++ after.flatMap (placed (some term.kind)), before.length :: positions, ?_, ?_,
          hplace, hkind, ?_, ?_⟩
        · rw [hsplit, List.flatMap_append, List.flatMap_cons, hplaced]
          simp only [List.cons_append, List.append_assoc]
        · -- Before it stand the root, what is below the earlier children, and the child's own nodes.
          intro entry hentry
          rw [List.mem_append, List.mem_cons, List.mem_flatMap] at hentry
          rcases hentry with (rfl | ⟨other, hother, hentry⟩) | hentry
          · exact hreason
          · exact reason?_placed (hbefore other hother).1 (hbefore other hother).2 entry hentry
          · exact hearlier entry hentry
        · rw [hpath, Path.child, List.append_assoc]
          rfl
        · rw [descend, ← children, hsplit, List.getElem?_append_right (Nat.le_refl _), Nat.sub_self]
          exact hdescend

end Term

/-! ## Offending nodes -/

namespace Arena

/-- What is wrong with a node in the tree below a root: its role, its payload or, for an operator,
that no expression with an operator holds it there. -/
def Offends (arena : Arena) (root id : Id) : Reason → Prop
  | .provisional => (arena.kind id).hasRole .primitive = true
  | .punctuation => (arena.kind id).hasRole .punctuation = true
  | .keyword => arena.kind id = .leaf .keyword
  | .operator => (arena.kind id).hasRole .operator = true ∧
      ∀ holder, arena.Reaches root holder → id ∈ arena.children holder →
        arena.kind holder ≠ .construct .unaryExpression ∧
          arena.kind holder ≠ .construct .binaryExpression ∧
            arena.kind holder ≠ .construct .comparisonExpression
  | .rawLiteral => (arena.kind id).hasRole .literalValue = true ∧
      ∃ text, (arena.form id).value? = some (.raw text)

/-- The report is about the first node in preorder that offends: its path leads there, and it names
the kind of that node and the one thing that is wrong with it. -/
def ReportsFirst (arena : Arena) (root : Id) (leftover : Leftover) : Prop :=
  ∃ id before after, descend arena.form root leftover.path.positions = some id ∧
    arena.kind id = leftover.kind ∧
      (∀ reason, arena.Offends root id reason ↔ reason = leftover.reason) ∧
        (arena.tree root).preorder = before ++ id :: after ∧
          ∀ earlier ∈ before, ∀ reason, ¬ arena.Offends root earlier reason

variable {arena : Arena} {root : Id} {term inner : Term Id} {place : Option Kind}

/-- In a tree a node has no holder but the one it is placed below. -/
theorem Bears.holders_iff (hbears : arena.Bears term) (hplaced : (place, inner) ∈ term.placed none)
    (property : Kind → Prop) :
    (∀ holder, arena.Reaches term.label holder → inner.label ∈ arena.children holder →
        property (arena.kind holder)) ↔
      ∀ kind, place = some kind → property kind := by
  constructor
  · rintro hholders kind rfl
    rcases Term.mem_placed_iff.mp hplaced with ⟨hroot, -⟩ | ⟨outer, houter, hinner, hkind⟩
    · cases hroot
    · obtain rfl := Option.some.inj hkind
      have hholds := hbears.holds.of_mem houter
      rw [← hholds.kind_eq]
      apply hholders outer.label (hbears.reaches_iff.mpr (List.mem_map_of_mem houter))
      rw [hholds.children_eq]
      exact List.mem_map_of_mem hinner
  · intro hplace holder hreaches hchild
    obtain ⟨outer, houter, rfl⟩ := List.mem_map.mp (hbears.reaches_iff.mp hreaches)
    have hholds := hbears.holds.of_mem houter
    rw [hholds.children_eq] at hchild
    obtain ⟨other, hother, hlabel⟩ := List.mem_map.mp hchild
    -- Labels occur once, so the child of the holder is the node that is placed.
    have hnodup : ((term.placed none).map (Term.label ∘ Prod.snd)).Nodup := by
      rw [← List.map_map, Term.map_snd_placed]
      exact hbears.nodup
    have hother_placed : (some outer.kind, other) ∈ term.placed none :=
      Term.mem_placed_iff.mpr (Or.inr ⟨outer, houter, hother, rfl⟩)
    have hsame := List.inj_on_of_nodup_map hnodup hplaced hother_placed hlabel.symm
    rw [hholds.kind_eq]
    exact hplace outer.kind (congrArg Prod.fst hsame)

/-- Nodes offend for the reason that validation sees. -/
theorem Bears.offends_iff (hbears : arena.Bears term) (hplaced : (place, inner) ∈ term.placed none)
    {reason : Reason} :
    arena.Offends term.label inner.label reason ↔ inner.form.reason? place = some reason := by
  have hholds := hbears.holds.of_mem (Term.mem_subterms_of_mem_placed hplaced)
  rw [Form.reason?_eq_some_iff]
  cases reason with
  | provisional | punctuation | keyword =>
      rw [Offends, hholds.kind_eq]
      rfl
  | rawLiteral =>
      rw [Offends, hholds.kind_eq, hholds.form_eq, Form.value?_map]
      rfl
  | operator =>
      rw [Offends, hholds.kind_eq, hbears.holders_iff hplaced fun kind =>
        kind ≠ .construct .unaryExpression ∧ kind ≠ .construct .binaryExpression ∧
          kind ≠ .construct .comparisonExpression]
      apply and_congr_right
      intro
      cases place with
      | none => simp
      | some kind => simp [Kind.holdsOperator_eq_false_iff]

theorem Bears.reaches_iff_mem_preorder (hbears : arena.Bears term) {id : Id} :
    arena.Reaches term.label id ↔ id ∈ (arena.tree term.label).preorder := by
  rw [hbears.reaches_iff, hbears.preorder_tree]

theorem Bears.preorder_eq_placed (hbears : arena.Bears term) :
    (arena.tree term.label).preorder = (term.placed none).map fun entry => entry.2.label := by
  rw [hbears.preorder_tree, Term.labels, ← Term.map_snd_placed none, List.map_map]
  rfl

theorem Bears.reportsFirst (hbears : arena.Bears term) {leftover : Leftover}
    (hleftover : term.outline.leftover? id none {} = some leftover) :
    arena.ReportsFirst term.label leftover := by
  obtain ⟨before, place, found, after, positions, hplaced, hbefore, hreason, hkind, hpath,
    hdescend⟩ := Term.exists_first hleftover
  have hmem : (place, found) ∈ term.placed none := by
    rw [hplaced]
    exact List.mem_append_right _ List.mem_cons_self
  have hfound := Term.mem_subterms_of_mem_placed hmem
  refine ⟨found.label, before.map fun entry => entry.2.label,
    after.map fun entry => entry.2.label, ?_, ?_, ?_, ?_, ?_⟩
  · rw [hpath, List.nil_append, hbears.holds.views.descend_eq term.mem_subterms_self, hdescend]
    rfl
  · rw [(hbears.holds.of_mem hfound).kind_eq, hkind]
  · intro reason
    rw [hbears.offends_iff hmem, hreason, Option.some_inj]
    exact eq_comm
  · rw [hbears.preorder_eq_placed, hplaced, List.map_append, List.map_cons]
  · rw [List.forall_mem_map]
    rintro ⟨place, inner⟩ hentry reason hoffends
    have hmem : (place, inner) ∈ term.placed none := by
      rw [hplaced]
      exact List.mem_append_left _ hentry
    rw [hbears.offends_iff hmem, hbefore _ hentry] at hoffends
    cases hoffends

theorem Bears.not_offends_of_validate (hbears : arena.Bears term)
    (hvalid : arena.validate term.label = .ok ()) :
    ∀ id reason, arena.Reaches term.label id → ¬ arena.Offends term.label id reason := by
  obtain ⟨hreason, hfits⟩ := hbears.fits_of_validate hvalid
  intro id reason hreaches hoffends
  rw [hbears.reaches_iff_mem_preorder, hbears.preorder_eq_placed] at hreaches
  obtain ⟨⟨place, inner⟩, hentry, rfl⟩ := List.mem_map.mp hreaches
  rw [hbears.offends_iff hentry, Term.reason?_placed hreason hfits _ hentry] at hoffends
  cases hoffends

/-- Validation is exact: it accepts a tree just if no node of it offends, and otherwise it reports
the first one that does. What it displays of the path determines the path. -/
theorem validate_exact (htree : arena.IsTree root) :
    (arena.validate root = .ok () ↔
      ∀ id reason, arena.Reaches root id → ¬ arena.Offends root id reason) ∧
    (∀ failure, arena.validate root = .error failure →
      ∃ leftover, failure = .unreduced leftover ∧ arena.ReportsFirst root leftover) ∧
    ∀ path other : Path, path.text = other.text → path = other := by
  obtain ⟨term, rfl, hbears⟩ := htree.exists_bears
  have hreports : ∀ failure, arena.validate term.label = .error failure →
      ∃ leftover, failure = .unreduced leftover ∧ arena.ReportsFirst term.label leftover := by
    intro failure hinvalid
    rw [validate, hbears.leftover?_tree] at hinvalid
    cases hleftover : term.outline.leftover? id none {} with
    | none =>
        rw [hleftover] at hinvalid
        cases hinvalid
    | some leftover =>
        rw [hleftover] at hinvalid
        exact ⟨leftover, (Except.error.inj hinvalid).symm, hbears.reportsFirst hleftover⟩
  refine ⟨⟨hbears.not_offends_of_validate, fun hnone => ?_⟩, hreports, Path.text_injective⟩
  cases hvalid : arena.validate term.label with
  | ok => rfl
  | error failure =>
      obtain ⟨leftover, -, id, before, after, -, -, hoffends, hpreorder, -⟩ :=
        hreports failure hvalid
      have hreaches : arena.Reaches term.label id := by
        rw [hbears.reaches_iff_mem_preorder, hpreorder]
        exact List.mem_append_right _ List.mem_cons_self
      exact absurd ((hoffends leftover.reason).mpr rfl) (hnone id leftover.reason hreaches)

/-- A sum, and behind it a block with an operator and a numeral that were never taken up. -/
def strayOperator : Arena where
  nodes := #[
    { form := .group (.program "main" true) [4, 5] },
    { form := .leaf (.literal .identifier) (.name "x") },
    { form := .leaf (.mark (.operator .plus)) (.raw "+") },
    { form := .leaf (.literal .identifier) (.name "y") },
    { form := .binary 2 1 3 },
    { form := .group .block [6, 7] },
    { form := .leaf (.mark (.operator .plus)) (.raw "+") },
    { form := .leaf (.literal .numeric) (.raw "1") }]

def strayOperatorLeftover : Leftover where
  kind := .leaf (.mark (.operator .plus))
  path := ⟨[1, 0]⟩
  reason := .operator

theorem validate_exact_strayOperator :
    strayOperator.IsTree 0 ∧
      strayOperator.validate 0 = .error (.unreduced strayOperatorLeftover) ∧
        strayOperator.ReportsFirst 0 strayOperatorLeftover := by
  have htree : strayOperator.IsTree 0 := by decide
  have hinvalid : strayOperator.validate 0 = .error (.unreduced strayOperatorLeftover) := rfl
  obtain ⟨leftover, hfailure, hreports⟩ := (validate_exact htree).2.1 _ hinvalid
  obtain rfl := Failure.unreduced.inj hfailure
  exact ⟨htree, hinvalid, hreports⟩

end Arena

end AstPromotion
