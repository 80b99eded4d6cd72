import AstPromotion.Proofs.Rejection
import AstPromotion.Proofs.Termination

/-! # Optimizing again what was accepted

No rule of either phase matches anywhere in an accepted program, and every child
in it already names its holder as its parent. Visits then write back what they
read, so optimizing again leaves the arena as it is, node for node.
-/

namespace AstPromotion.Arena

variable {arena : Arena} {root id : Id} {phase : Phase}

/-! ## Writes that change nothing -/

theorem modify_eq_self {change : Node → Node}
    (hchange : change (arena.node id) = arena.node id) : arena.modify id change = arena := by
  have hnodes : arena.nodes.modify id change = arena.nodes := by
    refine Array.ext Array.size_modify ?_
    intro position _ hinside
    rw [Array.getElem_modify]
    split
    next heq =>
        subst heq
        rwa [node, Array.getD_eq_getD_getElem?, Array.getElem?_eq_getElem hinside,
          Option.getD_some] at hchange
    next => rfl
  rw [modify, hnodes]

theorem setForm_form (arena : Arena) (id : Id) : arena.setForm id (arena.form id) = arena :=
  modify_eq_self rfl

theorem setParent_eq_self {parent : Option Id} (hparent : (arena.node id).parent = parent) :
    arena.setParent id parent = arena :=
  modify_eq_self (by rw [← hparent])

/-- Adopting children that already name their holder is no change. -/
theorem adopt_eq_self (hlinked : ∀ child ∈ arena.children id, (arena.node child).parent = some id) :
    arena.adopt id = arena := by
  rw [adopt]
  generalize arena.children id = children at hlinked
  induction children with
  | nil => rfl
  | cons child rest ih =>
      rw [List.foldl_cons, setParent_eq_self (hlinked child List.mem_cons_self)]
      exact ih fun other hother => hlinked other (List.mem_cons_of_mem _ hother)

/-! ## Visits that change nothing -/

/-- What a visit comes to that finds nothing to do. -/
def idle (arena : Arena) (id : Id) : Visit :=
  { standing := some id, arena, events := [] }

theorem visitEach_of_idle {visit : Id → Arena → Visit} {ids : List Id}
    (hidle : ∀ id ∈ ids, visit id arena = arena.idle id) :
    arena.visitEach visit ids = { standing := ids.map some, arena, events := [] } := by
  induction ids with
  | nil => rfl
  | cons id rest ih =>
      rw [visitEach, hidle id List.mem_cons_self]
      simp only [idle, ih fun other hother => hidle other (List.mem_cons_of_mem _ hother)]
      rfl

theorem visitChildren_of_idle {visit : Id → Arena → Visit}
    (hidle : ∀ child ∈ arena.children id, visit child arena = arena.idle child)
    (hlinked : ∀ child ∈ arena.children id, (arena.node child).parent = some id) :
    arena.visitChildren visit id = arena.idle id := by
  simp only [visitChildren, visitEach_of_idle hidle]
  rw [children, Form.refill_children, setForm_form, adopt_eq_self hlinked]
  rfl

theorem offer_of_idle (hplan : phase.catalogue.plan? arena.form id = none)
    (hlinked : ∀ child ∈ arena.children id, (arena.node child).parent = some id)
    (parent : Option Id) : arena.offer phase id parent = arena.idle id := by
  have hrewrite : arena.rewrite phase id = (none, arena) := by
    cases phase with
    | normalization =>
        simp only [rewrite, adopt_eq_self hlinked]
        rw [hplan]
    | promotion =>
        simp only [rewrite]
        rw [hplan]
  rw [offer, hrewrite]
  rfl

/-- The visit of a settled and linked term leaves the whole arena as it is. -/
theorem visit_of_idle {term : Term Id} (hholds : arena.Holds term) (hlinked : arena.Linked term)
    (hsettled : term.Settled phase) (depth : Nat) :
    visit phase depth term.label arena = arena.idle term.label := by
  induction depth generalizing term with
  | zero => rfl
  | succ depth ih =>
      obtain ⟨-, hbelow⟩ := holds_iff.mp hholds
      obtain ⟨hroot, hlinks⟩ := linked_iff.mp hlinked
      obtain ⟨hplan, hsettles⟩ := Term.settled_iff.mp hsettled
      rw [← hholds.views.plan?_eq_none_iff term.mem_subterms_self] at hplan
      have hparents : ∀ child ∈ arena.children term.label,
          (arena.node child).parent = some term.label := by
        rw [hholds.children_eq, List.forall_mem_map]
        exact hroot
      have hvisits : ∀ child ∈ arena.children term.label,
          visit phase depth child arena = arena.idle child := by
        rw [hholds.children_eq, List.forall_mem_map]
        exact fun child hchild => ih (hbelow child hchild) (hlinks child hchild) (hsettles child hchild)
      cases phase with
      | normalization =>
          rw [visit_normalization_succ, offer_of_idle hplan hparents, idle]
          simp only [visitChildren_of_idle hvisits hparents]
          rfl
      | promotion =>
          rw [visit_promotion_succ]
          simp only [visitChildren_of_idle hvisits hparents]
          rw [idle, offer_of_idle hplan hparents]
          rfl

/-! ## Runs that change nothing -/

/-- A program that both phases have settled, with every child linked to its holder. -/
structure AtRest (arena : Arena) (root : Id) (file : String) (shouldExecute : Bool)
    (term : Term Id) : Prop extends BearsProgram arena root file shouldExecute term where
  linked : arena.Linked term
  settled : ∀ phase, term.Settled phase

variable {file : String} {shouldExecute : Bool} {term : Term Id} {config : Config}

namespace AtRest

variable (hrest : arena.AtRest root file shouldExecute term)

include hrest

theorem settle_succ (phase : Phase) (limit : Nat) :
    arena.settle phase root (limit + 1) = { settled := true, passes := 1, events := [], arena } := by
  have hvisit := visit_of_idle hrest.bears.holds hrest.linked (hrest.settled phase) arena.size
  rw [hrest.label] at hvisit
  have hpass : arena.pass phase root = ([], arena) := by
    rw [pass, hvisit]
    rfl
  rw [settle_of_idle (by rw [hpass]), hpass]

/-- Phases that may make a pass make one each, and only validation can fail. -/
theorem optimize_eq (hlimit : config.maxPasses ≠ some 0) :
    (arena.optimize root config).arena = arena ∧
      (arena.optimize root config).outcome = (do
        if config.validate then arena.validate root
        return { normalization := { passes := 1, rewrites := 0 }
                 promotion := { passes := 1, rewrites := 0 } }) := by
  obtain ⟨limit, hlimit⟩ : ∃ limit, arena.limit config = limit + 1 := by
    rw [Arena.limit]
    cases hmax : config.maxPasses with
    | none => exact ⟨arena.size + 3, rfl⟩
    | some cap => exact Nat.exists_eq_succ_of_ne_zero fun hzero => hlimit (hzero ▸ hmax)
  have hnormal : arena.normalized config root =
      { settled := true, passes := 1, events := [], arena } := by
    rw [normalized, hlimit, hrest.settle_succ]
  have hpromoted : arena.promoted config root =
      { settled := true, passes := 1, events := [], arena } := by
    rw [promoted, hnormal, hlimit, hrest.settle_succ]
  have hsettled := optimize_of_settled hrest.kind_eq (by rw [hnormal])
    (hrest.kind_normalized config) (by rw [hpromoted])
  rwa [hnormal, hpromoted] at hsettled

/-- A phase that may make no pass changes nothing either. -/
theorem arena_optimize (config : Config) : (arena.optimize root config).arena = arena := by
  by_cases hlimit : config.maxPasses = some 0
  · have hnormal : arena.normalized config root =
        { settled := false, passes := 0, events := [], arena } := by
      rw [normalized, Arena.limit, hlimit]
      rfl
    rw [(optimize_of_unsettled hrest.kind_eq (by rw [hnormal])).1, hnormal]
  · exact (hrest.optimize_eq hlimit).1

end AtRest

/-! ## Accepted programs are at rest -/

/-- A run that settles has made a pass, and its last pass linked the program. -/
theorem BearsProgram.exists_linked (hprogram : arena.BearsProgram root file shouldExecute term)
    {limit : Nat} (hsettled : (arena.settle phase root limit).settled = true) :
    ∃ result, (arena.settle phase root limit).arena.BearsProgram root file shouldExecute result ∧
      (arena.settle phase root limit).arena.Linked result := by
  induction limit generalizing arena term with
  | zero => cases hsettled
  | succ limit ih =>
      obtain ⟨result, hpassed, hresult⟩ := hprogram.exists_passed phase
      simp only [settle] at hsettled ⊢
      split
      next => exact ⟨result, hresult, hpassed.linked⟩
      next hbusy =>
          rw [if_neg hbusy] at hsettled
          exact ih hresult hsettled

/-- Where validation finds nothing, neither phase has anything to do. -/
theorem BearsProgram.settled_of_validate
    (hprogram : arena.BearsProgram root file shouldExecute term)
    (hvalid : arena.validate root = .ok ()) (phase : Phase) : term.Settled phase := by
  rw [← hprogram.label] at hvalid
  obtain ⟨hreason, hfits⟩ := hprogram.bears.fits_of_validate hvalid
  exact Term.settled_of_accepted phase hreason hfits

theorem BearsProgram.exists_atRest (hprogram : arena.BearsProgram root file shouldExecute term)
    {report : Report} (hok : (arena.optimize root config).outcome = .ok report)
    (hvalidate : config.validate = true) :
    ∃ result, (arena.optimize root config).arena.AtRest root file shouldExecute result ∧
      (arena.optimize root config).arena.validate root = .ok () := by
  obtain ⟨-, hpromoted, harena, hvalid⟩ := hprogram.of_optimize_eq_ok hok
  obtain ⟨normal, hnormal⟩ := hprogram.exists_ran .normalization (arena.limit config)
  obtain ⟨result, hresult, hlinked⟩ := hnormal.program.exists_linked hpromoted
  rw [harena]
  exact ⟨result, ⟨hresult, hlinked, hresult.settled_of_validate (hvalid hvalidate)⟩,
    hvalid hvalidate⟩

/-- The arena after further optimizations of the same program, one in each configuration. -/
def reoptimized (arena : Arena) (root : Id) : List Config → Arena
  | [] => arena
  | config :: rest => (arena.optimize root config).arena.reoptimized root rest

theorem AtRest.reoptimized_eq (hrest : arena.AtRest root file shouldExecute term)
    (configs : List Config) : arena.reoptimized root configs = arena := by
  induction configs with
  | nil => rfl
  | cons config rest ih => rw [reoptimized, hrest.arena_optimize, ih]

end Arena

open Arena

/-- Optimization is idempotent on what it accepts: however often an accepted program has been
optimized since, if the phases may make a pass, each makes one and rewrites nothing, and every node
of the arena stays as it was. -/
theorem reoptimize_accepted {file source : String} {config : Config} {program : Optimized}
    (hvalidate : config.validate = true)
    (hok : (optimizeSource file source config).1 = .ok program) (earlier : List Config)
    {again : Config} (hlimit : again.maxPasses ≠ some 0) :
    (((program.arena.reoptimized program.root earlier).optimize program.root again).outcome =
        .ok { normalization := { passes := 1, rewrites := 0 }
              promotion := { passes := 1, rewrites := 0 } }) ∧
      ((program.arena.reoptimized program.root earlier).optimize program.root again).arena =
        program.arena := by
  obtain ⟨before, sketch, term, -, hsketch, hreport, harena⟩ := exists_of_optimizeSource hok
  obtain ⟨result, hrest, hvalid⟩ := hsketch.program.exists_atRest hreport hvalidate
  rw [harena] at hrest hvalid
  rw [hrest.reoptimized_eq]
  obtain ⟨hkept, houtcome⟩ := hrest.optimize_eq hlimit
  refine ⟨?_, hkept⟩
  rw [houtcome, hvalid]
  split <;> rfl

/-- A class with a constructor, which promotion moves out of the body. -/
def classWithConstructor : String :=
  "(Program (Statement (Expression class A '\x7b' (Block (Statement (Expression
    func constructor '(' (ArgumentList x) ')' '\x7b' (Block) '\x7d'))) '\x7d')))"

theorem reoptimize_accepted_class :
    ∃ program, (optimizeSource "main" classWithConstructor).1 = .ok program ∧
      ((program.arena.reoptimized program.root [{}, { maxPasses := some 0 }]).optimize program.root
          { maxPasses := some 1 }).outcome =
        .ok { normalization := { passes := 1, rewrites := 0 }
              promotion := { passes := 1, rewrites := 0 } } ∧
      ((program.arena.reoptimized program.root [{}, { maxPasses := some 0 }]).optimize program.root
          { maxPasses := some 1 }).arena = program.arena := by
  have hok : (optimizeSource "main" classWithConstructor).1.isOk = true := by decide +kernel
  cases hprogram : (optimizeSource "main" classWithConstructor).1 with
  | ok program => exact ⟨program, rfl, reoptimize_accepted rfl hprogram _ (by decide)⟩
  | error failure =>
      rw [hprogram] at hok
      cases hok

end AstPromotion
