import AstPromotion.Proofs.Promotion.Precedence
import AstPromotion.Rewriting
import Mathlib.Data.List.Nodup
import Mathlib.Data.List.Permutation

/-! # Which rules overlap

Two rules exclude each other if they take different kinds of subject, or if each
shape of the one has a test that contradicts the test of the other at the same
position. That can be decided from the rules alone. All but three pairs of the
promotion rules exclude each other, and in one of the three both rules do the
same. So the order of the rules matters for two pairs only.
-/

namespace AstPromotion

variable {α : Type} {look : α → Form α} {subject : α}

namespace Test

/-- Whether no node passes both tests, as far as their data shows. -/
def excludes : Test → Test → Bool
  | kind taken, kind others => decide (∀ kind, (taken kind && others kind) = false)
  | kind taken, keyword _ | keyword _, kind taken => !taken (.leaf .keyword)
  | keyword word, keyword other => word != other
  | _, _ => false

theorem not_accepts_of_excludes {first second : Test} {form : Form α}
    (hexcludes : first.excludes second = true) (hfirst : first.accepts form = true) :
    second.accepts form = false := by
  cases first with
  | any => cases hexcludes
  | kind taken =>
      have htaken : taken form.kind = true := hfirst
      cases second with
      | any => cases hexcludes
      | kind others =>
          have hkind := of_decide_eq_true hexcludes form.kind
          rwa [htaken, Bool.true_and] at hkind
      | keyword word =>
          rw [Bool.eq_false_iff]
          intro hword
          rw [excludes, ← Promotion.kind_of_isKeyword (accepts_keyword.mp hword), htaken] at hexcludes
          cases hexcludes
  | keyword word =>
      cases second with
      | any => cases hexcludes
      | kind others =>
          rwa [excludes, Bool.not_eq_true', ← Promotion.kind_of_isKeyword hfirst] at hexcludes
      | keyword other => exact Promotion.not_isKeyword hfirst (bne_iff_ne.mp hexcludes)

/-- Whether two lists of tests differ in length or exclude each other at some position. -/
def excludeSome : List Test → List Test → Bool
  | [], [] => false
  | test :: tests, other :: others => test.excludes other || excludeSome tests others
  | _, _ => true

theorem not_acceptEach_of_excludeSome {tests others : List Test} {nodes : List α}
    (hexclude : excludeSome tests others = true)
    (htests : acceptEach look tests nodes = true) : acceptEach look others nodes = false := by
  induction tests generalizing others nodes with
  | nil =>
      obtain rfl := acceptEach_nil.mp htests
      cases others with
      | nil => cases hexclude
      | cons => rfl
  | cons test tests ih =>
      obtain ⟨node, rest, rfl, hnode, hrest⟩ := acceptEach_cons.mp htests
      cases others with
      | nil => rfl
      | cons other others =>
          rw [acceptEach, Bool.and_eq_false_iff]
          rcases Bool.or_eq_true_iff.mp hexclude with htest | hothers
          · exact Or.inl (not_accepts_of_excludes htest hnode)
          · exact Or.inr (ih hothers hrest)

end Test

namespace Rule

/-- Whether no subject is taken by both rules, or no children fit a shape of each. -/
def excludes (first second : Rule) : Bool :=
  decide (∀ kind, (first.subject kind && second.subject kind) = false) ||
    first.shapes.all fun shape => second.shapes.all fun other =>
      Test.excludeSome shape.children other.children

/-- Of two rules that exclude each other at most one matches. -/
theorem plan?_of_excludes {first second : Rule} {edit : Edit α}
    (hexcludes : first.excludes second = true) (hfirst : first.plan? look subject = some edit) :
    second.plan? look subject = none := by
  obtain ⟨hsubject, shape, hshape, haccepted, -⟩ := exists_of_plan? hfirst
  rw [Option.eq_none_iff_forall_ne_some]
  intro edit' hsecond
  obtain ⟨hsubject', other, hother, haccepted', -⟩ := exists_of_plan? hsecond
  rcases Bool.or_eq_true_iff.mp hexcludes with hkinds | hshapes
  · have hkind := of_decide_eq_true hkinds (look subject).kind
    rw [hsubject, hsubject'] at hkind
    cases hkind
  · have hexclude := List.all_eq_true.mp (List.all_eq_true.mp hshapes shape hshape) other hother
    rw [Test.not_acceptEach_of_excludeSome hexclude haccepted] at haccepted'
    cases haccepted'

end Rule

namespace Catalogue

/-- The rules that match a subject, in order. -/
def matching (rules : Catalogue) (look : α → Form α) (subject : α) : Catalogue :=
  rules.filter fun rule => (rule.plan? look subject).isSome

theorem plan?_matching (rules : Catalogue) (look : α → Form α) (subject : α) :
    (rules.matching look subject).plan? look subject = rules.plan? look subject := by
  induction rules with
  | nil => rfl
  | cons rule rest ih =>
      rw [matching] at ih ⊢
      cases hplan : rule.plan? look subject with
      | none =>
          rw [List.filter_cons_of_neg (by simp [hplan]), ih, plan?, plan?, List.findSome?_cons, hplan]
          rfl
      | some edit =>
          rw [List.filter_cons_of_pos (by simp [hplan]), plan?, plan?, List.findSome?_cons,
            List.findSome?_cons, hplan]
          rfl

theorem isSome_of_matching {rules matched : Catalogue} {rule : Rule}
    (hmatching : rules.matching look subject = matched) (hrule : rule ∈ matched) :
    (rule.plan? look subject).isSome = true := by
  rw [← hmatching] at hrule
  exact (List.mem_filter.mp hrule).2

/-- The first rule that matches wins. -/
theorem plan?_of_matching {rules others : Catalogue} {rule : Rule} {edit : Edit α}
    (hmatching : rules.matching look subject = rule :: others)
    (hplan : rule.plan? look subject = some edit) :
    rules.plan? look subject = some (rule.name, edit) := by
  rw [← plan?_matching, hmatching, plan?, List.findSome?_cons, hplan]
  rfl

/-- Whether rules exclude each other, known pairs of names apart. -/
def Apart (known : List (String × String)) (first second : Rule) : Prop :=
  first.excludes second = true ∨ (first.name, second.name) ∈ known

instance (known : List (String × String)) : DecidableRel (Apart known) := fun first second =>
  inferInstanceAs (Decidable (first.excludes second = true ∨ (first.name, second.name) ∈ known))

/-- Rules that match the same subject are a known pair. -/
theorem pairwise_matching {rules : Catalogue} {known : List (String × String)}
    (hrules : rules.Pairwise (Apart known)) (look : α → Form α) (subject : α) :
    (rules.matching look subject).Pairwise fun first second => (first.name, second.name) ∈ known := by
  refine (hrules.sublist List.filter_sublist).imp_of_mem ?_
  intro first second hfirst hsecond hapart
  refine hapart.resolve_left fun hexcludes => ?_
  obtain ⟨edit, hedit⟩ := Option.isSome_iff_exists.mp (List.mem_filter.mp hfirst).2
  have hnone := Rule.plan?_of_excludes hexcludes hedit
  have hmatches := isSome_of_matching rfl hsecond
  rw [hnone] at hmatches
  cases hmatches

/-- Reordering a catalogue reorders what matches. -/
theorem perm_matching {rules others : Catalogue} (hperm : rules.Perm others) (look : α → Form α)
    (subject : α) : (rules.matching look subject).Perm (others.matching look subject) :=
  hperm.filter _

end Catalogue

namespace Normalization

theorem pairwise_apart : catalogue.Pairwise (Catalogue.Apart []) := by
  decide +kernel

/-- No two normalization rules match the same subject. -/
theorem matching_cases (look : α → Form α) (subject : α) :
    catalogue.matching look subject = [] ∨ ∃ rule, catalogue.matching look subject = [rule] := by
  have hpairs := Catalogue.pairwise_matching pairwise_apart look subject
  match hmatching : catalogue.matching look subject with
  | [] => exact Or.inl rfl
  | [rule] => exact Or.inr ⟨rule, rfl⟩
  | first :: second :: others =>
      rw [hmatching] at hpairs
      cases (List.pairwise_cons.mp hpairs).1 second List.mem_cons_self

/-- The order of the normalization rules does not matter. -/
theorem plan?_of_perm {rules : Catalogue} (hperm : rules.Perm catalogue) (look : α → Form α)
    (subject : α) : rules.plan? look subject = catalogue.plan? look subject := by
  have hmatching : rules.matching look subject = catalogue.matching look subject := by
    have hreordered := Catalogue.perm_matching hperm look subject
    rcases matching_cases look subject with hnone | ⟨rule, hone⟩
    · rw [hnone] at hreordered ⊢
      exact hreordered.eq_nil
    · rw [hone] at hreordered ⊢
      exact List.perm_singleton.mp hreordered
  rw [← Catalogue.plan?_matching, hmatching, Catalogue.plan?_matching]

end Normalization

namespace Promotion

/-- The rules that can match a subject together with another one. -/
def overlapping : Catalogue :=
  [unwrapIfStatement, functionDefinition, classDefinition]

/-- By name, the rules that can match together: the other one is always the unwrapping of settled
statements. -/
def overlaps : List (String × String) :=
  overlapping.map fun rule => (rule.name, unwrapSettled.name)

theorem pairwise_apart : catalogue.Pairwise (Catalogue.Apart overlaps) := by
  decide +kernel

theorem eq_of_name_eq {first second : Rule} (hfirst : first ∈ catalogue) (hsecond : second ∈ catalogue)
    (hname : first.name = second.name) : first = second :=
  List.inj_on_of_nodup_map (f := Rule.name) (by decide) hfirst hsecond hname

theorem overlapping_subset : overlapping ⊆ catalogue := by
  simp [overlapping, catalogue]

theorem of_mem_overlaps {first second : Rule} (hfirst : first ∈ catalogue)
    (hsecond : second ∈ catalogue) (hoverlap : (first.name, second.name) ∈ overlaps) :
    first ∈ overlapping ∧ second = unwrapSettled := by
  obtain ⟨rule, hrule, hnames⟩ := List.mem_map.mp hoverlap
  obtain ⟨hname, hname'⟩ := Prod.mk.inj hnames
  obtain rfl := eq_of_name_eq (overlapping_subset hrule) hfirst hname
  exact ⟨hrule, (eq_of_name_eq (by simp [catalogue]) hsecond hname').symm⟩

/-- At most one promotion rule matches a subject, unless it is a statement that can be unwrapped. -/
theorem matching_cases (look : α → Form α) (subject : α) :
    catalogue.matching look subject = [] ∨ (∃ rule, catalogue.matching look subject = [rule]) ∨
      ∃ rule ∈ overlapping, catalogue.matching look subject = [rule, unwrapSettled] := by
  have hpairs := Catalogue.pairwise_matching pairwise_apart look subject
  have hmem (rule : Rule) (hrule : rule ∈ catalogue.matching look subject) : rule ∈ catalogue :=
    (List.mem_filter.mp hrule).1
  match hmatching : catalogue.matching look subject with
  | [] => exact Or.inl rfl
  | [rule] => exact Or.inr (Or.inl ⟨rule, rfl⟩)
  | first :: second :: others =>
      rw [hmatching] at hpairs hmem
      obtain ⟨hfirst, hrest⟩ := List.pairwise_cons.mp hpairs
      obtain ⟨hoverlapping, rfl⟩ := of_mem_overlaps (hmem first List.mem_cons_self)
        (hmem second (by simp)) (hfirst second List.mem_cons_self)
      cases others with
      | nil => exact Or.inr (Or.inr ⟨first, hoverlapping, rfl⟩)
      | cons third others =>
          -- The unwrapping of settled statements is second in each pair, never first.
          obtain ⟨hsecond, -⟩ := of_mem_overlaps (hmem unwrapSettled (by simp)) (hmem third (by simp))
            ((List.pairwise_cons.mp hrest).1 third List.mem_cons_self)
          exact absurd (List.mem_map_of_mem (f := Rule.name) hsecond) (by decide)

/-- An order of the promotion rules in which definitions still come before unwrapping. -/
structure Reordered (rules : Catalogue) : Prop where
  perm : rules.Perm catalogue
  functions : [functionDefinition, unwrapSettled].Sublist rules
  classes : [classDefinition, unwrapSettled].Sublist rules

/-- What comes first among the rules comes first among those that match. -/
theorem not_matching_of_sublist {rules : Catalogue} {rule : Rule}
    (hsublist : [rule, unwrapSettled].Sublist rules) (hname : rule.name ≠ unwrapSettled.name) :
    rules.matching look subject ≠ [unwrapSettled, rule] := by
  intro hmatching
  have hpair : [rule, unwrapSettled].Sublist (rules.matching look subject) := by
    have hboth := hsublist.filter fun rule => (rule.plan? look subject).isSome
    rwa [List.filter_eq_self.mpr] at hboth
    intro other hother
    exact Catalogue.isSome_of_matching hmatching (List.mem_pair.mpr (List.mem_pair.mp hother).symm)
  rw [hmatching] at hpair
  exact hname (congrArg Rule.name (List.cons.inj (hpair.eq_of_length rfl)).1)

/-- A statement whose only child is an if statement that is no longer provisional. -/
structure HoldsIf (look : α → Form α) (subject child : α) : Prop where
  holder : (look subject).kind = .group (.provisional .statement)
  children : (look subject).children = [child]
  held : (look child).kind = .construct .ifStatement

/-- Such a statement is what both rules that unwrap statements match, and both lift the child. -/
theorem exists_holdsIf (hmatches : (unwrapIfStatement.plan? look subject).isSome = true)
    (hmatches' : (unwrapSettled.plan? look subject).isSome = true) :
    ∃ child, HoldsIf look subject child ∧
      unwrapIfStatement.plan? look subject = some (.lift child) ∧
        unwrapSettled.plan? look subject = some (.lift child) := by
  obtain ⟨edit, hplan⟩ := Option.isSome_iff_exists.mp hmatches
  obtain ⟨edit', hplan'⟩ := Option.isSome_iff_exists.mp hmatches'
  obtain ⟨hsubject, haccepted, hlift⟩ := Rule.of_plan? rfl hplan
  obtain ⟨child, hchildren, hchild, rfl⟩ := lift_of_plan? haccepted hlift
  obtain ⟨-, haccepted', hlift'⟩ := Rule.of_plan? rfl hplan'
  obtain ⟨child', hchildren', hsettled, rfl⟩ := lift_of_plan? haccepted' hlift'
  obtain rfl : child = child' := by simpa [hchildren] using hchildren'
  have hkinds := Test.accepts_exactly.mp hchild
  simp only [List.mem_cons, List.not_mem_nil, or_false] at hkinds
  rcases hkinds with hprovisional | hkind
  · rw [Test.accepts, hprovisional] at hsettled
    cases hsettled
  · exact ⟨child, ⟨List.mem_singleton.mp (mem_of_isGrouping hsubject), hchildren, hkind⟩, hplan, hplan'⟩

/-- In another order the same edit is planned, though perhaps under the other name. -/
theorem plan?_of_reordered {rules : Catalogue} (hrules : Reordered rules) (look : α → Form α)
    (subject : α) :
    rules.plan? look subject = catalogue.plan? look subject ∨
      ∃ child, HoldsIf look subject child ∧
        catalogue.plan? look subject = some (unwrapIfStatement.name, .lift child) ∧
          rules.plan? look subject = some (unwrapSettled.name, .lift child) := by
  have hreordered := Catalogue.perm_matching hrules.perm look subject
  have hsame (hmatching : rules.matching look subject = catalogue.matching look subject) :
      rules.plan? look subject = catalogue.plan? look subject := by
    rw [← Catalogue.plan?_matching, hmatching, Catalogue.plan?_matching]
  rcases matching_cases look subject with hnone | ⟨rule, hone⟩ | ⟨rule, hrule, htwo⟩
  · exact Or.inl (hsame (hnone ▸ (hnone ▸ hreordered).eq_nil))
  · exact Or.inl (hsame (hone ▸ List.perm_singleton.mp (hone ▸ hreordered)))
  · rcases List.perm_pair.mp (htwo ▸ hreordered) with hmatching | hmatching
    · exact Or.inl (hsame (hmatching.trans htwo.symm))
    · right
      simp only [overlapping, List.mem_cons, List.not_mem_nil, or_false] at hrule
      rcases hrule with rfl | rfl | rfl
      · obtain ⟨child, hholds, hplan, hplan'⟩ := exists_holdsIf
          (Catalogue.isSome_of_matching htwo List.mem_cons_self)
          (Catalogue.isSome_of_matching hmatching List.mem_cons_self)
        exact ⟨child, hholds, Catalogue.plan?_of_matching htwo hplan,
          Catalogue.plan?_of_matching hmatching hplan'⟩
      · exact absurd hmatching (not_matching_of_sublist hrules.functions (by decide))
      · exact absurd hmatching (not_matching_of_sublist hrules.classes (by decide))

end Promotion

namespace Arena

variable {arena : Arena} {phase : Phase} {rules : Catalogue} {subject : Id}

/-- `rewrite` with other rules than those of the phase. -/
def rewriteBy (arena : Arena) (phase : Phase) (rules : Catalogue) (subject : Id) :
    Option Firing × Arena :=
  let arena := match phase with
    | .normalization => arena.adopt subject
    | .promotion => arena
  match rules.plan? arena.form subject with
  | none => (none, arena)
  | some (rule, edit) =>
    let (rewrite, arena) := arena.enact subject edit
    (some { rule, rewrite }, arena)

theorem rewriteBy_catalogue (arena : Arena) (phase : Phase) (subject : Id) :
    arena.rewriteBy phase phase.catalogue subject = arena.rewrite phase subject :=
  rfl

/-- The rules matter for what they plan only. -/
theorem rewriteBy_of_plan?
    (hplan : rules.plan? arena.form subject = phase.catalogue.plan? arena.form subject) :
    arena.rewriteBy phase rules subject = arena.rewrite phase subject := by
  rw [← rewriteBy_catalogue]
  cases phase with
  | normalization => simp only [rewriteBy, form_adopt, hplan]
  | promotion => simp only [rewriteBy, hplan]

theorem rewriteBy_of_reordered (hrules : Promotion.Reordered rules) (arena : Arena) (subject : Id) :
    arena.rewriteBy .promotion rules subject = arena.rewrite .promotion subject ∨
      ∃ child, Promotion.HoldsIf arena.form subject child ∧
        arena.rewrite .promotion subject =
          (some { rule := "unwrap if statement", rewrite := .replace child }, arena) ∧
        arena.rewriteBy .promotion rules subject =
          (some { rule := "unwrap settled statement", rewrite := .replace child }, arena) := by
  rcases Promotion.plan?_of_reordered hrules arena.form subject with hplan |
    ⟨child, hholds, hplan, hplan'⟩
  · exact Or.inl (rewriteBy_of_plan? hplan)
  · refine Or.inr ⟨child, hholds, ?_, ?_⟩
    · simp only [rewrite, Phase.catalogue, hplan, enact, Promotion.unwrapIfStatement]
    · simp only [rewriteBy, hplan', enact, Promotion.unwrapSettled]

/-- If unwrapping comes before a definition, a statement that is one is unwrapped. -/
theorem sublist_of_rewriteBy {rule : Rule} {child : Id} (hperm : rules.Perm Promotion.catalogue)
    (hmatching : Promotion.catalogue.matching arena.form subject = [rule, Promotion.unwrapSettled])
    (hlift : Promotion.unwrapSettled.plan? arena.form subject = some (.lift child))
    (hbuilds : (arena.rewrite .promotion subject).1.map Firing.rewrite ≠ some (.replace child))
    (hsame : (arena.rewriteBy .promotion rules subject).1.map Firing.rewrite =
      (arena.rewrite .promotion subject).1.map Firing.rewrite) :
    [rule, Promotion.unwrapSettled].Sublist rules := by
  have hreordered := Catalogue.perm_matching hperm arena.form subject
  rcases List.perm_pair.mp (hmatching ▸ hreordered) with hkept | hswapped
  · rw [← hkept]
    exact List.filter_sublist
  · have hplan := Catalogue.plan?_of_matching hswapped hlift
    simp only [rewriteBy, hplan, enact, Option.map_some] at hsame
    exact absurd hsame.symm hbuilds

end Arena

/-- The overlaps of the rules, and the orders that matter. No two rules of normalization match the
same node, so any order of them rewrites alike. Of the promotion rules at most one matches, or one
of three together with the unwrapping of settled statements. So if definitions come before that
rule, the order of all else is without effect, but that the lifting of an if statement out of the
statement around it may be reported under the other name. -/
theorem overlaps_known :
    (∀ (arena : Arena) (id : Id), (Normalization.catalogue.matching arena.form id).length ≤ 1) ∧
    (∀ (arena : Arena) (id : Id),
      Promotion.catalogue.matching arena.form id = [] ∨
      (∃ rule, Promotion.catalogue.matching arena.form id = [rule]) ∨
      ∃ rule ∈ [Promotion.unwrapIfStatement, Promotion.functionDefinition,
          Promotion.classDefinition],
        Promotion.catalogue.matching arena.form id = [rule, Promotion.unwrapSettled]) ∧
    (∀ rules : Catalogue, rules.Perm Normalization.catalogue → ∀ (arena : Arena) (id : Id),
      arena.rewriteBy .normalization rules id = arena.rewrite .normalization id) ∧
    ∀ rules : Catalogue, Promotion.Reordered rules → ∀ (arena : Arena) (id : Id),
      arena.rewriteBy .promotion rules id = arena.rewrite .promotion id ∨
      ∃ child, Promotion.HoldsIf arena.form id child ∧
        arena.rewrite .promotion id =
          (some { rule := "unwrap if statement", rewrite := .replace child }, arena) ∧
        arena.rewriteBy .promotion rules id =
          (some { rule := "unwrap settled statement", rewrite := .replace child }, arena) := by
  refine ⟨fun arena id => ?_, fun arena id => Promotion.matching_cases arena.form id, ?_,
    fun rules hrules => Arena.rewriteBy_of_reordered hrules⟩
  · rcases Normalization.matching_cases arena.form id with hnone | ⟨rule, hone⟩
    · simp [hnone]
    · simp [hone]
  · intro rules hperm arena id
    exact Arena.rewriteBy_of_plan? (Normalization.plan?_of_perm hperm arena.form id)

/-- A statement around a function literal, one around a class literal, and one around an if
statement. -/
def wrappedConstructs : Arena where
  nodes := #[
    { form := .group (.provisional .statement) [1] },
    { form := .functionLiteral none 6 7 },
    { form := .group (.provisional .statement) [3] },
    { form := .classLiteral 8 none 7 },
    { form := .group (.provisional .statement) [5] },
    { form := .ifStatement 8 7 none },
    { form := .group .argumentList [] },
    { form := .group .block [] },
    { form := .leaf (.literal .identifier) (.name "x") }]

/-- The last four promotion rules first: the definitions and what may be dropped or unwrapped. -/
def rotated : Catalogue :=
  Promotion.catalogue.drop 16 ++ Promotion.catalogue.take 16

theorem reordered_rotated : Promotion.Reordered rotated where
  perm := List.perm_append_comm.trans (by rw [List.take_append_drop])
  functions := .cons_cons _ (.cons _ (.cons_cons _ (List.nil_sublist _)))
  classes := .cons _ (.cons_cons _ (.cons_cons _ (List.nil_sublist _)))

theorem overlaps_known_rotated :
    Normalization.catalogue.reverse.Perm Normalization.catalogue ∧
    wrappedConstructs.rewriteBy .normalization Normalization.catalogue.reverse 8 =
      wrappedConstructs.rewrite .normalization 8 ∧
    Promotion.Reordered rotated ∧
    wrappedConstructs.rewriteBy .promotion rotated 4 =
      (some { rule := "unwrap settled statement", rewrite := .replace 5 }, wrappedConstructs) := by
  obtain ⟨-, -, hnormalization, hpromotion⟩ := overlaps_known
  have hperm := List.reverse_perm Normalization.catalogue
  refine ⟨hperm, hnormalization _ hperm wrappedConstructs 8, reordered_rotated, ?_⟩
  rcases hpromotion rotated reordered_rotated wrappedConstructs 4 with hsame |
    ⟨child, hholds, -, hrewrite⟩
  · exact absurd (congrArg (fun result => result.1.map Firing.rule) hsame) (by decide)
  · obtain rfl : 5 = child := (List.cons.inj hholds.children).1
    exact hrewrite

/-- No other order of the promotion rules rewrites every node alike. -/
theorem reordered_iff {rules : Catalogue} (hperm : rules.Perm Promotion.catalogue) :
    Promotion.Reordered rules ↔ ∀ (arena : Arena) (id : Id),
      (arena.rewriteBy .promotion rules id).1.map Firing.rewrite =
        (arena.rewrite .promotion id).1.map Firing.rewrite := by
  constructor
  · intro hrules arena id
    rcases Arena.rewriteBy_of_reordered hrules arena id with hsame | ⟨child, -, hrewrite, hother⟩
    · rw [hsame]
    · rw [hrewrite, hother]
      rfl
  · intro hsame
    exact {
      perm := hperm
      functions :=
        Arena.sublist_of_rewriteBy hperm rfl rfl (by decide) (hsame wrappedConstructs 0)
      classes :=
        Arena.sublist_of_rewriteBy hperm rfl rfl (by decide) (hsame wrappedConstructs 2) }

end AstPromotion
