import AstPromotion.Proofs.Rejection
import AstPromotion.Proofs.Siblings
import AstPromotion.Proofs.Sketch.Reading

/-! # Programs compose

Nothing leaks from one item of a program into another. The items of two programs,
put into one, become what they became in their own, and what is left over of the
second program is reported as many places further to the right as there are items
left of the first.
-/

namespace AstPromotion

/-! ## Leftovers of siblings -/

namespace Leftover

/-- The leftover as it is reported from a root that the path leads to. -/
def below (path : Path) (leftover : Leftover) : Leftover :=
  { leftover with path := ⟨path.positions ++ leftover.path.positions⟩ }

/-- The leftover as it is reported a number of places further to the right. -/
def shift (count : Nat) (leftover : Leftover) : Leftover :=
  { leftover with path := ⟨leftover.path.positions.modifyHead (· + count)⟩ }

end Leftover

namespace Tree

variable {α β : Type} (look : β → Form α)

mutual

/-- The path to a tree is in front of every path that is reported from it. -/
theorem leftover?_below (holder : Option Kind) (path : Path) : ∀ tree : Tree β,
    leftover? look holder path tree = (leftover? look holder {} tree).map (·.below path)
  | .node label children => by
      rw [leftover?, leftover?]
      split
      next => simp [Leftover.below]
      next => exact leftoverAmong?_below _ path 0 children

theorem leftoverAmong?_below (holder : Kind) (path : Path) (position : Nat) :
    ∀ trees : List (Tree β), leftoverAmong? look holder path position trees =
      (leftoverAmong? look holder {} position trees).map (·.below path)
  | [] => rfl
  | tree :: rest => by
      rw [leftoverAmong?, leftoverAmong?, leftover?_below (some holder) (path.child position),
        leftover?_below (some holder) (({} : Path).child position), leftoverAmong?_below]
      cases leftover? look (some holder) {} tree with
      | none => rfl
      | some found => simp [Leftover.below, Path.child]

end

variable {look} {holder : Kind}

theorem leftoverAmong?_append_eq {path : Path} {position : Nat} (first second : List (Tree β)) :
    leftoverAmong? look holder path position (first ++ second) =
      (leftoverAmong? look holder path position first).or
        (leftoverAmong? look holder path (position + first.length) second) := by
  induction first generalizing position with
  | nil => rfl
  | cons tree rest ih =>
      rw [List.cons_append, leftoverAmong?, leftoverAmong?]
      cases leftover? look (some holder) (path.child position) tree with
      | none =>
          rw [ih, List.length_cons, Nat.add_comm rest.length, ← Nat.add_assoc]
      | some found => rfl

/-- What is found among siblings is found at the same place among them, wherever they start. -/
theorem leftoverAmong?_shift (position count : Nat) (trees : List (Tree β)) :
    leftoverAmong? look holder {} (position + count) trees =
      (leftoverAmong? look holder {} position trees).map (·.shift count) := by
  induction trees generalizing position with
  | nil => rfl
  | cons tree rest ih =>
      rw [leftoverAmong?, leftoverAmong?, leftover?_below look _ (Path.child {} (position + count)),
        leftover?_below look _ (Path.child {} position), Nat.add_right_comm, ih]
      cases leftover? look (some holder) {} tree with
      | none => rfl
      | some found => rfl

theorem exists_of_leftoverAmong? {position : Nat} {trees : List (Tree β)} {leftover : Leftover}
    (hfound : leftoverAmong? look holder {} position trees = some leftover) :
    ∃ first rest, leftover.path.positions = first :: rest := by
  obtain ⟨before, child, _, -, -, hchild⟩ := exists_of_leftoverAmong?_eq_some hfound
  rw [leftover?_below] at hchild
  obtain ⟨found, -, rfl⟩ := Option.map_eq_some_iff.mp hchild
  exact ⟨position + before.length, found.path.positions, rfl⟩

end Tree

namespace Term

/-- What validation finds in a program over the items. -/
def leftoverIn? (items : List (Term Unit)) : Option Leftover :=
  Tree.leftoverAmong? id (.group .program) {} 0 (items.map outline)

theorem leftoverIn?_append (first second : List (Term Unit)) :
    leftoverIn? (first ++ second) =
      (leftoverIn? first).or ((leftoverIn? second).map (·.shift first.length)) := by
  rw [leftoverIn?, List.map_append, Tree.leftoverAmong?_append_eq, Tree.leftoverAmong?_shift,
    List.length_map]
  rfl

theorem leftoverIn?_singleton_eq_none_iff {tree : Term Unit} :
    leftoverIn? [tree] = none ↔ tree.form.reason? (some (.group .program)) = none ∧ tree.Fits := by
  have hnone : tree.outline.leftover? id (some (.group .program)) (({} : Path).child 0) = none ↔
      tree.form.reason? (some (.group .program)) = none ∧ tree.Fits :=
    leftover?_outline_eq_none_iff
  rw [← hnone, leftoverIn?, List.map_singleton, Tree.leftoverAmong?, Tree.leftoverAmong?]
  cases tree.outline.leftover? id (some (.group .program)) (({} : Path).child 0) with
  | none => simp
  | some leftover => simp

end Term

/-! ## Programs that were read -/

open Term (Settles program leftoverIn?)

/-- How a program compiles without a limit on passes: its items settle in both phases, and
validation looks at what is left of them. -/
structure Compiles (file source : String) (items result : List (Term Unit))
    (optimized : Optimized) : Prop where
  settles : ∃ middle, Settles .normalization items middle optimized.report.normalization ∧
    Settles .promotion middle result optimized.report.promotion
  ast_eq : optimized.arena.ast optimized.root = program file result
  length_eq : (optimized.arena.children optimized.root).length = result.length
  unchecked : (optimizeSource file source { validate := false }).1 = .ok optimized
  checked : (optimizeSource file source).1 =
    match leftoverIn? result with
    | some leftover => .error (.refused file (.unreduced leftover))
    | none => .ok optimized

namespace Arena

variable {arena : Arena} {root : Id} {file : String} {term : Term Id}

/-- Validation of a program is validation of its items. -/
theorem BearsProgram.validate_eq (hprogram : arena.BearsProgram root file true term)
    {result : List (Term Unit)} (hterm : term.erase = program file result) :
    arena.validate root = match leftoverIn? result with
      | some leftover => .error (.unreduced leftover)
      | none => .ok () := by
  rw [← hprogram.label, validate, ← Tree.leftover?_map_blank arena.form, hprogram.bears.outline_eq,
    hterm, Term.outline_eq]
  rfl

end Arena

theorem Sketch.toTerm_program (file : String) (items : List Sketch) :
    (Sketch.group .program items).toTerm file = program file (items.map (toTerm file)) :=
  toTerm_group file .program items

theorem exists_compiles (file : String) {source : String} {items : List Sketch}
    (hparse : Sketch.parse source = .ok (.group .program items)) :
    ∃ result optimized, Compiles file source (items.map (Sketch.toTerm file)) result optimized := by
  obtain ⟨root, before, hplant⟩ : ∃ root before,
      (Sketch.group .program items).plant file {} = (root, before) := ⟨_, _, rfl⟩
  have hread : parseSource file source = .ok (root, before) := by
    rw [parseSource, hparse]
    exact congrArg Except.ok hplant
  have hkind : before.kind root = .group .program := by
    have hkind := Arena.kind_plant file .program items
    rwa [hplant] at hkind
  obtain ⟨term, hsketch⟩ := Arena.exists_bearsSketch_of_plant hplant hkind
  have hterm := hsketch.erase_eq
  rw [Sketch.toTerm_program] at hterm
  have hsettled (validate : Bool) : (before.normalized { validate } root).settled = true ∧
      (before.promoted { validate } root).settled = true :=
    hsketch.program.settled_of_unlimited hsketch.shallow rfl
  have hrun (validate : Bool) := Arena.optimize_of_settled hsketch.program.kind_eq
    (hsettled validate).1 (hsketch.program.kind_normalized _) (hsettled validate).2
  obtain ⟨normal, middle, hmiddle, hmiddle_term, hsettles⟩ :=
    hsketch.program.exists_settles hterm (hsettled true).1
  obtain ⟨last, result, hlast, hlast_term, hsettles'⟩ :=
    hmiddle.exists_settles hmiddle_term (hsettled true).2
  have hvalid : (before.promoted {} root).arena.validate root = _ := hlast.validate_eq hlast_term
  refine ⟨result, {
    arena := (before.promoted {} root).arena, root
    report := {
      normalization := (before.normalized {} root).stats
      promotion := (before.promoted {} root).stats } }, ?_⟩
  exact {
    settles := ⟨middle, hsettles, hsettles'⟩
    ast_eq := by
      rw [← hlast_term, ← hlast.bears.ast_eq, hlast.label]
      rfl
    length_eq := by
      have hchildren := hlast.bears.holds.children_eq
      rw [hlast.label] at hchildren
      have hlength := congrArg (fun term => term.children.length) hlast_term
      rw [Term.erase, Term.children_map, List.length_map] at hlength
      refine (congrArg List.length hchildren).trans ?_
      rw [List.length_map, hlength]
      rfl
    unchecked := by
      obtain ⟨harena, houtcome⟩ := hrun false
      rw [optimizeSource, hread]
      simp only [houtcome, harena]
      rfl
    checked := by
      obtain ⟨harena, houtcome⟩ := hrun true
      rw [optimizeSource, hread]
      simp only [houtcome, harena, if_pos]
      rw [hvalid]
      cases leftoverIn? result with
      | none => rfl
      | some leftover => rfl }

/-- How the program with the items of two programs compiles next to how they do: without validation
it becomes both of them, and with validation it is refused where the first one that is refused is,
counted from the start of both. -/
structure Composed (file first second both : String) (one two whole : Optimized) : Prop where
  first_eq : (optimizeSource file first { validate := false }).1 = .ok one
  second_eq : (optimizeSource file second { validate := false }).1 = .ok two
  both_eq : (optimizeSource file both { validate := false }).1 = .ok whole
  ast_eq : whole.arena.ast whole.root =
    program file ((one.arena.ast one.root).children ++ (two.arena.ast two.root).children)
  normalization_eq :
    whole.report.normalization = one.report.normalization.beside two.report.normalization
  promotion_eq : whole.report.promotion = one.report.promotion.beside two.report.promotion
  accepted_iff : (optimizeSource file both).1.isOk =
    ((optimizeSource file first).1.isOk && (optimizeSource file second).1.isOk)
  first_refused : ∀ error, (optimizeSource file first).1 = .error error →
    (optimizeSource file both).1 = .error error
  second_refused : ∀ accepted error, (optimizeSource file first).1 = .ok accepted →
    (optimizeSource file second).1 = .error error →
      ∃ kind position positions reason,
        error = .refused file (.unreduced { kind, path := ⟨position :: positions⟩, reason }) ∧
          (optimizeSource file both).1 = .error (.refused file (.unreduced {
            kind
            path := ⟨(position + (accepted.arena.children accepted.root).length) :: positions⟩
            reason }))

namespace Compiles

variable {file first second both : String} {items others left right result : List (Term Unit)}
  {one two whole : Optimized}

/-- What becomes of items beside each other is what becomes of them alone, in as many passes as the
slower ones take and with the rewrites of both. -/
theorem append (hone : Compiles file first items left one)
    (htwo : Compiles file second others right two)
    (hwhole : Compiles file both (items ++ others) result whole) :
    result = left ++ right ∧
      whole.report.normalization = one.report.normalization.beside two.report.normalization ∧
        whole.report.promotion = one.report.promotion.beside two.report.promotion := by
  obtain ⟨middle, hnormal, hpromoted⟩ := hone.settles
  obtain ⟨middle', hnormal', hpromoted'⟩ := htwo.settles
  obtain ⟨middle'', hnormal'', hpromoted''⟩ := hwhole.settles
  obtain ⟨rfl, hnormalization⟩ := (hnormal.append hnormal').unique hnormal''
  obtain ⟨hresult, hpromotion⟩ := (hpromoted.append hpromoted').unique hpromoted''
  exact ⟨hresult, hnormalization, hpromotion⟩

theorem of_checked_eq_ok (hcompiles : Compiles file first items left one) {accepted : Optimized}
    (hok : (optimizeSource file first).1 = .ok accepted) :
    leftoverIn? left = none ∧ accepted = one := by
  rw [hcompiles.checked] at hok
  cases hleft : leftoverIn? left with
  | none =>
      rw [hleft] at hok
      exact ⟨rfl, (Except.ok.inj hok).symm⟩
  | some leftover =>
      rw [hleft] at hok
      cases hok

theorem isOk_checked (hcompiles : Compiles file first items left one) :
    (optimizeSource file first).1.isOk = (leftoverIn? left).isNone := by
  rw [hcompiles.checked]
  cases leftoverIn? left <;> rfl

theorem checked_eq_error_iff (hcompiles : Compiles file first items left one)
    {error : CompileError} :
    (optimizeSource file first).1 = .error error ↔
      ∃ leftover, leftoverIn? left = some leftover ∧
        error = .refused file (.unreduced leftover) := by
  rw [hcompiles.checked]
  cases leftoverIn? left with
  | none => simp
  | some leftover => simp [eq_comm]

/-- The first leftover of two programs is one of the first program, or else one of the second. -/
theorem composed (hone : Compiles file first items left one)
    (htwo : Compiles file second others right two)
    (hwhole : Compiles file both (items ++ others) result whole) :
    Composed file first second both one two whole := by
  obtain ⟨rfl, hnormalization, hpromotion⟩ := hone.append htwo hwhole
  have happend := Term.leftoverIn?_append left right
  exact {
    first_eq := hone.unchecked
    second_eq := htwo.unchecked
    both_eq := hwhole.unchecked
    ast_eq := by
      rw [hwhole.ast_eq, hone.ast_eq, htwo.ast_eq]
      rfl
    normalization_eq := hnormalization
    promotion_eq := hpromotion
    accepted_iff := by
      rw [hwhole.isOk_checked, hone.isOk_checked, htwo.isOk_checked, happend]
      cases leftoverIn? left <;> cases leftoverIn? right <;> rfl
    first_refused := by
      intro error hrefused
      obtain ⟨leftover, hleft, rfl⟩ := hone.checked_eq_error_iff.mp hrefused
      refine hwhole.checked_eq_error_iff.mpr ⟨leftover, ?_, rfl⟩
      rw [happend, hleft, Option.some_or]
    second_refused := by
      intro accepted error hok hrefused
      obtain ⟨hleft, rfl⟩ := hone.of_checked_eq_ok hok
      obtain ⟨⟨kind, ⟨path⟩, reason⟩, hright, rfl⟩ := htwo.checked_eq_error_iff.mp hrefused
      obtain ⟨position, positions, rfl⟩ := Tree.exists_of_leftoverAmong? hright
      refine ⟨kind, position, positions, reason, rfl, ?_⟩
      refine hwhole.checked_eq_error_iff.mpr ⟨_, ?_, rfl⟩
      rw [happend, hleft, hright, Option.none_or, hone.length_eq]
      rfl }

end Compiles

/-- Programs compose: the items of two programs that can be read can be written as one program, and
however they are written, that program compiles as the two do. -/
theorem composed_of_parse (file : String) {first second : String} {items others : List Sketch}
    (hfirst : Sketch.parse first = .ok (.group .program items))
    (hsecond : Sketch.parse second = .ok (.group .program others)) :
    Sketch.parse (Sketch.group .program (items ++ others)).render =
        .ok (.group .program (items ++ others)) ∧
      ∀ both, Sketch.parse both = .ok (.group .program (items ++ others)) →
        ∃ one two whole, Composed file first second both one two whole := by
  constructor
  · apply Sketch.parse_render
    have hproper := (Sketch.parse_eq_ok_iff.mp hfirst).1.proper
    have hproper' := (Sketch.parse_eq_ok_iff.mp hsecond).1.proper
    intro token htoken
    rw [Sketch.tokens, Sketch.tokensEach_eq_flatMap, List.flatMap_append, List.mem_append,
      ← Sketch.tokensEach_eq_flatMap, ← Sketch.tokensEach_eq_flatMap] at htoken
    exact htoken.elim (hproper token) (hproper' token)
  · intro both hboth
    obtain ⟨left, one, hone⟩ := exists_compiles file hfirst
    obtain ⟨right, two, htwo⟩ := exists_compiles file hsecond
    obtain ⟨result, whole, hwhole⟩ := exists_compiles file hboth
    rw [List.map_append] at hwhole
    exact ⟨one, two, whole, hone.composed htwo hwhole⟩

/-- A declaration, which is accepted. -/
def declared : Sketch :=
  .group (.provisional .statement) [.leaf (.word "let"), .leaf (.word "x")]

/-- Two names that no rule takes together. -/
def namesBeside : Sketch :=
  .group (.provisional .expression) [.leaf (.word "y"), .leaf (.word "z")]

theorem composed_of_parse_refused :
    (∃ one two whole,
      Composed "main" "(Program (Statement let x))" "(Program (Expression y z))"
        "(Program (Statement let x) (Expression y z))" one two whole) ∧
      (optimizeSource "main" "(Program (Statement let x))").1.isOk = true ∧
        (optimizeSource "main" "(Program (Expression y z))").1.isOk = false := by
  have hfirst : Sketch.parse "(Program (Statement let x))" = .ok (.group .program [declared]) := by
    cbv
  have hsecond : Sketch.parse "(Program (Expression y z))" = .ok (.group .program [namesBeside]) := by
    cbv
  have hboth : Sketch.parse "(Program (Statement let x) (Expression y z))" =
      .ok (.group .program ([declared] ++ [namesBeside])) := by
    cbv
  obtain ⟨-, hcomposed⟩ := composed_of_parse "main" hfirst hsecond
  exact ⟨hcomposed _ hboth, by decide +kernel, by decide +kernel⟩

end AstPromotion
