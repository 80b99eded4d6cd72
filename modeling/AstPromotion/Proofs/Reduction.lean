import AstPromotion.Proofs.Composition
import AstPromotion.Proofs.Language.Acceptance
import AstPromotion.Proofs.Language.Phrases
import AstPromotion.Proofs.Operators

/-! # Reduction of items

What both phases make of items, they make of them side by side with others, in a
container, and in an expression that has a mark for its second item: no rule of
normalization takes such an expression apart, so that promotion is offered it with
what it has made of the items.
-/

namespace AstPromotion

namespace Term

variable {phase : Phase} {label : Unit} {heading : Heading} {items result : List (Term Unit)}
  {stats : Stats}

/-- A visit of a group in which all that happens is a visit of each item. -/
def IsPassage (phase : Phase) (heading : Heading) (items : List (Term Unit)) : Prop :=
  (node () (.group heading items)).visit phase () =
    { term := node () (.group heading (pass phase items)), gone := false,
      events := passEvents phase items }

/-- Of a group that stays as it is, the items are visited. -/
theorem isPassage_of_rebuild
    (hvisit : (node () (.group heading items)).visit phase () =
      { term := rebuild () ((Form.group heading items).map (visit phase ())), gone := false,
        events := eventsBelow ((Form.group heading items).map (visit phase ())) }) :
    IsPassage phase heading items := by
  rw [IsPassage, hvisit, rebuild_of_group rfl, eventsBelow, Form.children_map, List.flatMap_map]
  rfl

theorem isPassage_of_container (phase : Phase) (hkind : (Kind.group heading.kind).isContainer = true)
    (items : List (Term Unit)) : IsPassage phase heading items := by
  have hterm : (node () (.group heading items)).kind.isContainer = true := hkind
  exact isPassage_of_rebuild (visit_of_container phase () hterm)

theorem isPassage_of_unmatched
    (hplan : Phase.normalization.catalogue.plan? form (node () (.group heading items)) = none) :
    IsPassage .normalization heading items := by
  have hoffer := offer_of_none hplan ()
  apply isPassage_of_rebuild
  rw [visit, normalize_of_stays (by rw [hoffer]), hoffer]
  rfl

/-- A group settles as its items do, if none of its visits does more than to visit them. -/
theorem Settles.inside (keeps : List (Term Unit) → Prop)
    (hsettles : Settles phase items result stats) (hitems : keeps items)
    (hpassage : ∀ items, keeps items → IsPassage phase heading items)
    (hkeeps : ∀ items rest, keeps items → Settles phase (pass phase items) result rest →
      keeps (pass phase items)) :
    Settles phase [node () (.group heading items)] [node () (.group heading result)] stats := by
  have hevents {items : List (Term Unit)} (hitems : keeps items) :
      passEvents phase [node () (.group heading items)] = passEvents phase items := by
    rw [passEvents, List.flatMap_singleton, hpassage items hitems]
  induction hsettles with
  | idle hidle => exact .idle ((hevents hitems).trans hidle)
  | @busy items result rest hbusy hrest ih =>
      have hpass : pass phase [node () (.group heading items)] =
          [node () (.group heading (pass phase items))] := by
        rw [pass, List.map_singleton, hpassage items hitems]
        rfl
      rw [← hevents hitems] at hbusy ⊢
      refine .busy hbusy ?_
      rw [hpass]
      exact ih (hkeeps items rest hitems hrest) hkeeps

end Term

namespace Language

open Normalization (isSeparator)
open Term (Settles IsPassage passEvents remaining leftoverIn?)

variable {items items' trees trees' result : List (Term Unit)} {stats : Stats}

/-- A mark bears its spelling. -/
abbrev markLeaf (mark : Mark) : Term Unit :=
  leaf (.mark mark) (.raw mark.spelling)

/-! ## Expressions with a mark in second place -/

/-- The second item is a mark that normalization keeps. -/
def Marked (items : List (Term Unit)) : Prop :=
  ∃ first mark rest, items = first :: markLeaf mark :: rest ∧
    isSeparator (.leaf (.mark mark)) = false

theorem passEvents_markLeaf {mark : Mark} (hkept : isSeparator (.leaf (.mark mark)) = false) :
    passEvents .normalization [markLeaf mark] = [] := by
  have hrow : Row "" [.leaf (.mark mark)] [markLeaf mark] [markLeaf mark] := Row.mark hkept
  rw [passEvents, List.flatMap_singleton,
    Term.visit_of_settled (hrow.settled _ (List.mem_singleton_self _))]
  rfl

/-- No rule of normalization takes an expression apart that has a mark in second place. -/
theorem Marked.isPassage (hmarked : Marked items) :
    IsPassage .normalization (.provisional .expression) items := by
  obtain ⟨first, mark, rest, rfl, -⟩ := hmarked
  apply Term.isPassage_of_unmatched
  cases hplan : Phase.normalization.catalogue.plan? Term.form
    (list (.provisional .expression) (first :: markLeaf mark :: rest)) with
  | none => exact hplan
  | some planned =>
      exfalso
      obtain ⟨rule, edit⟩ := planned
      cases Normalization.step_of_plan? hplan with
      | coerce hform hread => cases hform
      | strip hsubject => cases hsubject
      | unwrap hsubject hchildren => cases hchildren
      | unparenthesize hsubject hchildren hopening hinner =>
          cases hchildren
          cases hinner

/-- As long as no item is removed, the mark stays where it is. -/
theorem Marked.pass (hmarked : Marked items)
    (hlength : items.length ≤ (Term.pass .normalization items).length) :
    Marked (Term.pass .normalization items) := by
  obtain ⟨first, mark, rest, rfl, hkept⟩ := hmarked
  have hsplit : Term.pass .normalization (first :: markLeaf mark :: rest) =
      Term.pass .normalization [first] ++ ([markLeaf mark] ++ Term.pass .normalization rest) := by
    have hmark := Term.pass_of_idle (passEvents_markLeaf hkept)
    calc Term.pass .normalization (first :: markLeaf mark :: rest)
        = Term.pass .normalization ([first] ++ ([markLeaf mark] ++ rest)) := rfl
      _ = _ := by rw [Term.pass_append, Term.pass_append, hmark]
  have hfirst := Term.length_pass_le .normalization [first]
  have hrest := Term.length_pass_le .normalization rest
  rw [hsplit] at hlength ⊢
  simp only [List.length_append, List.length_cons, List.length_nil] at hlength hfirst
  obtain ⟨first', hfirst'⟩ := List.length_eq_one_iff.mp
    (show (Term.pass .normalization [first]).length = 1 by omega)
  rw [hfirst']
  exact ⟨first', mark, _, rfl, hkept⟩

/-- An expression with a mark in second place settles as its items do, if none is removed. -/
theorem Marked.settles (hmarked : Marked items)
    (hsettles : Settles .normalization items result stats) (hlength : result.length = items.length) :
    Settles .normalization [list (.provisional .expression) items]
      [list (.provisional .expression) result] stats := by
  refine hsettles.inside (fun between => Marked between ∧ between.length ≤ result.length)
    ⟨hmarked, hlength.ge⟩ (fun _ hkept => hkept.1.isPassage) ?_
  rintro between rest ⟨hkept, hle⟩ hrest
  have hpass := Term.length_pass_le .normalization between
  exact ⟨hkept.pass (hle.trans hrest.length_le), hpass.trans hle⟩

/-! ## Reduction -/

/-- What both phases make of items: promotion is left with some, and makes these trees of them. -/
structure Reduces (items trees : List (Term Unit)) : Prop where
  shallow : ∀ item ∈ items, item.Shallow
  settles : ∃ plains stats, Settles .normalization items plains stats ∧
    Term.pass .promotion plains = trees

namespace Reduces

theorem append (hfirst : Reduces items trees) (hsecond : Reduces items' trees') :
    Reduces (items ++ items') (trees ++ trees') where
  shallow := List.forall_mem_append.mpr ⟨hfirst.shallow, hsecond.shallow⟩
  settles := by
    obtain ⟨plains, stats, hsettles, rfl⟩ := hfirst.settles
    obtain ⟨plains', stats', hsettles', rfl⟩ := hsecond.settles
    exact ⟨plains ++ plains', _, hsettles.append hsettles', Term.pass_append _ _ _⟩

/-- A mark that normalization keeps stays. -/
theorem mark {mark : Mark} (hkept : isSeparator (.leaf (.mark mark)) = false) :
    Reduces [markLeaf mark] [markLeaf mark] where
  shallow := List.forall_mem_singleton.mpr (Term.shallow_of_leaf rfl)
  settles := ⟨_, _, .idle (passEvents_markLeaf hkept), Row.promoted_leaf _ _⟩

theorem container {heading : Heading} (hkind : (Kind.group heading.kind).isContainer = true)
    (hreduces : Reduces items trees) : Reduces [list heading items] [list heading trees] where
  shallow := List.forall_mem_singleton.mpr (Term.shallow_of_group rfl hreduces.shallow)
  settles := by
    obtain ⟨plains, stats, hsettles, rfl⟩ := hreduces.settles
    have hpassage (phase : Phase) (items : List (Term Unit)) : IsPassage phase heading items :=
      Term.isPassage_of_container phase hkind items
    refine ⟨_, stats, hsettles.inside (fun _ => True) trivial
      (fun items _ => hpassage .normalization items) fun _ _ _ _ => trivial, ?_⟩
    rw [Term.pass, List.map_singleton, list, hpassage .promotion plains]
    rfl

/-- An expression with a mark in second place is offered to promotion with what its items reduce
to. -/
theorem expression (hmarked : Marked items) (hreduces : Reduces items trees)
    (hlength : items.length ≤ trees.length)
    (hoffer : remaining [(list (.provisional .expression) trees).offer .promotion ()] = result) :
    Reduces [list (.provisional .expression) items] result where
  shallow := List.forall_mem_singleton.mpr (Term.shallow_of_group rfl hreduces.shallow)
  settles := by
    obtain ⟨plains, stats, hsettles, rfl⟩ := hreduces.settles
    have hplains := hlength.trans (Term.length_pass_le .promotion plains)
    refine ⟨_, stats, hmarked.settles hsettles (hsettles.length_le.antisymm hplains), ?_⟩
    obtain ⟨hterm, hgone⟩ := promote_list (.provisional .expression) plains
    rw [← hoffer, Term.pass, List.map_singleton, Term.visit, Term.remaining_cons,
      Term.remaining_cons, hterm, hgone]
    rfl

variable {file source : String} {optimized : Optimized}

theorem of_compiles (hcompiles : Compiles file source items trees optimized)
    (hshallow : ∀ item ∈ items, item.Shallow) : Reduces items trees where
  shallow := hshallow
  settles := by
    obtain ⟨middle, hnormal, hpromoted⟩ := hcompiles.settles
    exact ⟨middle, _, hnormal, (hpromoted.eq_pass (hnormal.shallow hshallow)).symm⟩

/-- Items compile to what they reduce to. -/
theorem eq_of_compiles (hreduces : Reduces items trees)
    (hcompiles : Compiles file source items result optimized) : result = trees := by
  obtain ⟨plains, stats, hsettles, rfl⟩ := hreduces.settles
  obtain ⟨middle, hnormal, hpromoted⟩ := hcompiles.settles
  obtain ⟨rfl, -⟩ := hsettles.unique hnormal
  exact hpromoted.eq_pass (hnormal.shallow hreduces.shallow)

end Reduces

/-! ## Acceptance -/

/-- What is accepted in a program is accepted anywhere. -/
theorem accepted_of_leftoverIn? {tree : Term Unit} (hnone : leftoverIn? [tree] = none) :
    Accepted tree := by
  obtain ⟨hreason, hfits⟩ := Term.leftoverIn?_singleton_eq_none_iff.mp hnone
  have hrole : tree.form.hasRole .operator = false := Term.isOperator_of_reason? hreason rfl
  refine ⟨fun holder => ?_, hfits⟩
  simp only [Form.reason?, hrole, Bool.false_and] at hreason ⊢
  exact hreason

theorem leftoverIn?_eq_none_iff : leftoverIn? trees = none ↔ ∀ tree ∈ trees, Accepted tree := by
  induction trees with
  | nil => exact ⟨fun _ => List.forall_mem_nil _, fun _ => rfl⟩
  | cons tree rest ih =>
      rw [← List.singleton_append, Term.leftoverIn?_append, Option.or_eq_none_iff,
        Option.map_eq_none_iff, ih, List.forall_mem_append, List.forall_mem_singleton]
      refine and_congr_left fun _ => ⟨accepted_of_leftoverIn?, fun haccepted => ?_⟩
      exact Term.leftoverIn?_singleton_eq_none_iff.mpr ⟨haccepted.root _, haccepted.fits⟩

end Language

/-! ## Programs that are accepted -/

open AstPromotion.Language (Reduces Accepted)
open Term (program)

/-- However the items are written as a program, it is accepted and leaves these trees. -/
structure Yields (file : String) (items : List Sketch) (trees : List (Term Unit)) : Prop where
  parse_render : Sketch.parse (Sketch.group .program items).render = .ok (.group .program items)
  accepted : ∀ source, Sketch.parse source = .ok (.group .program items) →
    ∃ optimized, (optimizeSource file source).1 = .ok optimized ∧
      optimized.arena.ast optimized.root = program file trees

variable {file source : String} {items : List Sketch} {trees : List (Term Unit)}

/-- A program yields what its items reduce to, if nothing is wrong with that. -/
theorem yields_iff : Yields file items trees ↔
    (∀ token ∈ Sketch.tokensEach items, token.Proper) ∧
      Reduces (items.map (Sketch.toTerm file)) trees ∧ ∀ tree ∈ trees, Accepted tree := by
  have hshallow : ∀ item ∈ items.map (Sketch.toTerm file), item.Shallow :=
    List.forall_mem_map.mpr fun item _ => item.shallow_toTerm file
  constructor
  · rintro ⟨hrender, haccepted⟩
    obtain ⟨one, hok, hast⟩ := haccepted _ hrender
    obtain ⟨result, optimized, hcompiles⟩ := exists_compiles file hrender
    obtain ⟨hnone, rfl⟩ := hcompiles.of_checked_eq_ok hok
    obtain rfl : result = trees := by
      rw [hcompiles.ast_eq] at hast
      exact congrArg Term.children hast
    exact ⟨(Sketch.parse_eq_ok_iff.mp hrender).1.proper, .of_compiles hcompiles hshallow,
      Language.leftoverIn?_eq_none_iff.mp hnone⟩
  · rintro ⟨hproper, hreduces, haccepted⟩
    refine ⟨Sketch.parse_render hproper, fun source hparse => ?_⟩
    obtain ⟨result, optimized, hcompiles⟩ := exists_compiles file hparse
    obtain rfl := hreduces.eq_of_compiles hcompiles
    refine ⟨optimized, ?_, hcompiles.ast_eq⟩
    rw [hcompiles.checked, Language.leftoverIn?_eq_none_iff.mpr haccepted]

/-- What one way to write the items leaves, every other way leaves. -/
theorem yields_of_optimizeSource {one : Optimized}
    (hparse : Sketch.parse source = .ok (.group .program items))
    (hok : (optimizeSource file source).1 = .ok one) :
    Yields file items (one.arena.ast one.root).children := by
  obtain ⟨result, optimized, hcompiles⟩ := exists_compiles file hparse
  obtain ⟨hnone, rfl⟩ := hcompiles.of_checked_eq_ok hok
  rw [hcompiles.ast_eq]
  exact yields_iff.mpr ⟨(Sketch.parse_eq_ok_iff.mp hparse).1.proper,
    .of_compiles hcompiles (List.forall_mem_map.mpr fun item _ => item.shallow_toTerm file),
    Language.leftoverIn?_eq_none_iff.mp hnone⟩

end AstPromotion
