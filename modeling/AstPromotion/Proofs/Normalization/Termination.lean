import AstPromotion.Proofs.Normalization.Chains
import AstPromotion.Proofs.Parsed

/-! # When normalization ends

Normalization of a program ends if and only if no required field holds a
separator. If it ends, the number of passes is logarithmic in the number of
expressions, whatever else the program is made of.
-/

namespace AstPromotion

theorem Term.wrappers_map {ι κ : Type} (f : ι → κ) (term : Term ι) :
    (term.map f).wrappers = term.wrappers := by
  rw [wrappers, wrappers, subterms_map, List.countP_map]
  congr 1
  funext inner
  rw [Function.comp, Form.hasRole, Form.hasRole, form_map, Form.kind_map]

namespace Arena

open Normalization (isSeparator)

/-- How many nodes from the root on play the role of an expression. -/
def expressions (arena : Arena) (root : Id) : Nat :=
  (arena.tree root).preorder.countP fun id => (arena.form id).hasRole .expression

/-- A required field that can be reached from the root holds a separator. -/
def Clogged (arena : Arena) (root : Id) : Prop :=
  arena.Retains root fun id => isSeparator (arena.kind id) = true

variable {arena : Arena} {root : Id} {file : String} {shouldExecute : Bool} {term : Term Id}
  {config : Config}

theorem Bears.expressions_eq (hbears : arena.Bears term) :
    arena.expressions term.label = term.wrappers := by
  rw [expressions, hbears.preorder_tree, Term.labels, List.countP_map, Term.wrappers]
  refine List.countP_congr fun inner hinner => ?_
  rw [Function.comp, hbears.holds inner hinner, Form.hasRole, Form.kind_map, Form.hasRole]

theorem BearsProgram.clogged_iff (hprogram : arena.BearsProgram root file shouldExecute term) :
    arena.Clogged root ↔ term.erase.Retains Term.IsSeparator := by
  rw [Clogged, ← hprogram.label, Term.erase, Term.retains_map]
  refine hprogram.bears.retains_iff fun inner hinner => ?_
  rw [(hprogram.bears.holds.of_mem hinner).kind_eq, Term.IsSeparator, Term.kind_map]

theorem BearsProgram.isContainer_erase (hprogram : arena.BearsProgram root file shouldExecute term) :
    term.erase.kind.isContainer = true := by
  rw [Term.erase, Term.kind_map]
  exact hprogram.isContainer

/-- A separator in a required field keeps every pass busy. -/
theorem BearsProgram.outcome_of_clogged (hprogram : arena.BearsProgram root file shouldExecute term)
    (hclogged : arena.Clogged root) {cap : Nat} (hcap : config.maxPasses = some cap) :
    (arena.runPhase config .normalization root).outcome =
      .error (.passLimit .normalization cap) := by
  apply runPhase_of_unsettled hprogram.kind_eq hcap
  rw [hprogram.settled_eq]
  exact Term.settle_of_busy .normalization () (Term.Retains Term.IsSeparator)
    (fun _ hretains => (Normalization.retains_normalize () hretains).2.2)
    (fun _ hretains => (Normalization.retains_normalize () hretains).2.1)
    (hprogram.clogged_iff.mp hclogged) cap

/-- Without one, a number of visits that is logarithmic in the number of expressions is enough. -/
theorem BearsProgram.settled_advance_of_not_clogged
    (hprogram : arena.BearsProgram root file shouldExecute term) (hclogged : ¬ arena.Clogged root) :
    (term.erase.advance .normalization ()
      (Nat.log 2 (max (arena.expressions root) 1) + 3)).Settled .normalization := by
  have hstays : (term.erase.normalize ()).gone = false :=
    Normalization.gone_normalize_of_container hprogram.isContainer_erase
  have hadvance := Normalization.settled_advance () (hprogram.clogged_iff.not.mp hclogged) hstays
  rwa [Term.erase, Term.wrappers_map, ← hprogram.bears.expressions_eq, hprogram.label] at hadvance

theorem BearsProgram.settled_of_not_clogged
    (hprogram : arena.BearsProgram root file shouldExecute term) (hclogged : ¬ arena.Clogged root) :
    (arena.settle .normalization root
      (Nat.log 2 (max (arena.expressions root) 1) + 4)).settled = true := by
  rw [hprogram.settled_eq]
  exact congrArg Prod.fst (Term.settle_of_advance (hprogram.settled_advance_of_not_clogged hclogged))

/-- So many passes an unlimited run makes. -/
theorem BearsProgram.passes_le_patience
    (hprogram : arena.BearsProgram root file shouldExecute term) :
    Nat.log 2 (max (arena.expressions root) 1) + 4 ≤ arena.patience := by
  have hlog := Nat.log_lt_self 2 (x := max (arena.expressions root) 1) (by omega)
  have hinside := hprogram.bears.root_inside
  have hwrappers := term.wrappers_le.trans hprogram.bears.length_le
  rw [← hprogram.bears.expressions_eq, hprogram.label] at hwrappers
  rw [patience]
  omega

theorem BearsProgram.outcome_of_not_clogged
    (hprogram : arena.BearsProgram root file shouldExecute term) (hclogged : ¬ arena.Clogged root)
    (hlimit : config.maxPasses = none) :
    ∃ stats, (arena.runPhase config .normalization root).outcome = .ok stats ∧
      stats.passes ≤ Nat.log 2 (max (arena.expressions root) 1) + 4 := by
  have hpatience := hprogram.passes_le_patience
  have houtcome := (runPhase_of_settled config hprogram.kind_eq
    (hprogram.settled_of_not_clogged hclogged) (by rwa [hlimit])).1
  exact ⟨_, houtcome, passes_settle_le _⟩

/-- What it leaves is what visits make of the abstract tree until it is settled. -/
theorem BearsProgram.exists_normalized (hprogram : arena.BearsProgram root file shouldExecute term)
    (hclogged : ¬ arena.Clogged root) (hlimit : config.maxPasses = none) :
    ∃ stats result count, (arena.runPhase config .normalization root).outcome = .ok stats ∧
      (arena.runPhase config .normalization root).arena.BearsProgram root file shouldExecute result ∧
        result.erase = term.erase.advance .normalization () count ∧
          result.erase.Settled .normalization := by
  have hsettled := hprogram.settled_of_not_clogged hclogged
  have hpatience := hprogram.passes_le_patience
  obtain ⟨houtcome, harena⟩ := runPhase_of_settled config hprogram.kind_eq hsettled (by rwa [hlimit])
  obtain ⟨result, hran⟩ := hprogram.exists_ran .normalization
    (Nat.log 2 (max (arena.expressions root) 1) + 4)
  have himage := hran.image (fun _ => ()) () fun _ _ => rfl
  have hadvance := Term.settle_of_advance (hprogram.settled_advance_of_not_clogged hclogged)
  rw [← Term.erase, hadvance] at himage
  have hresult : result.erase = term.erase.advance .normalization ()
      (Nat.log 2 (max (arena.expressions root) 1) + 3) := (congrArg Prod.snd himage).symm
  refine ⟨_, result, _, houtcome, ?_, hresult, ?_⟩
  · rw [harena]
    exact hran.program
  · rw [hresult]
    exact hprogram.settled_advance_of_not_clogged hclogged

/-- What is read from a text has no required fields. -/
theorem BearsSketch.not_clogged {sketch : Sketch} (hsketch : arena.BearsSketch root file sketch term) :
    ¬ arena.Clogged root := by
  rw [hsketch.program.clogged_iff]
  exact Term.not_retains_of_shallow (Term.shallow_map.mpr hsketch.shallow)

/-- Whether normalization ends. On a program whose reachable part is a tree it fails at every cap
if a required field holds a separator; otherwise, without a cap, it succeeds after a number of
passes that is logarithmic in the number of expressions. A program that was read from a text is of
the second kind. -/
theorem normalization_ends :
    (∀ (arena : Arena) (root : Id), arena.kind root = .group .program → arena.IsTree root →
      (arena.Clogged root → ∀ (config : Config) (cap : Nat), config.maxPasses = some cap →
        (arena.runPhase config .normalization root).outcome =
          .error (.passLimit .normalization cap)) ∧
      (¬ arena.Clogged root → ∀ config : Config, config.maxPasses = none →
        ∃ stats, (arena.runPhase config .normalization root).outcome = .ok stats ∧
          stats.passes ≤ Nat.log 2 (max (arena.expressions root) 1) + 4)) ∧
    ∀ (file source : String) (root : Id) (arena : Arena),
      parseSource file source = .ok (root, arena) → arena.kind root = .group .program →
        ∀ config : Config, config.maxPasses = none →
          ∃ stats, (arena.runPhase config .normalization root).outcome = .ok stats := by
  constructor
  · intro arena root hkind htree
    obtain ⟨file, shouldExecute, term, hprogram⟩ := htree.exists_bearsProgram hkind
    constructor
    · intro hclogged config cap
      exact hprogram.outcome_of_clogged hclogged
    · intro hclogged config
      exact hprogram.outcome_of_not_clogged hclogged
  · intro file source root arena hparse hkind config hlimit
    obtain ⟨sketch, term, -, hsketch⟩ := exists_bearsSketch hparse hkind
    obtain ⟨stats, hok, -⟩ := hsketch.program.outcome_of_not_clogged hsketch.not_clogged hlimit
    exact ⟨stats, hok⟩

/-- A declaration whose identifier is a comma. -/
def strayComma : Arena where
  nodes := #[
    { form := .group (.program "main" true) [1] },
    { form := .variableDeclaration 2 },
    { form := .leaf (.mark (.punctuation .comma)) (.raw ",") }]

/-- A name in two pairs of parentheses, beside a comma in a list. -/
def wrappedName : Arena where
  nodes := #[
    { form := .group (.program "main" true) [1, 2] },
    { form := .leaf (.mark (.punctuation .comma)) (.raw ",") },
    { form := .group (.provisional .expression) [3, 4, 5] },
    { form := .leaf (.mark (.punctuation .leftParen)) (.raw "(") },
    { form := .group (.provisional .expression) [6] },
    { form := .leaf (.mark (.punctuation .rightParen)) (.raw ")") },
    { form := .leaf (.literal .identifier) (.raw "x") }]

theorem clogged_strayComma : strayComma.Clogged 0 :=
  ⟨1, .child .root List.mem_cons_self, 2, List.mem_cons_self, rfl⟩

theorem not_clogged_wrappedName : ¬ wrappedName.Clogged 0 :=
  not_retains_of_required (by decide)

theorem normalization_ends_wrappedName :
    (strayComma.runPhase { maxPasses := some 5 } .normalization 0).outcome =
        .error (.passLimit .normalization 5) ∧
      (∃ stats, (wrappedName.runPhase {} .normalization 0).outcome = .ok stats ∧
        stats.passes ≤ 5) ∧
      ∃ root arena stats, parseSource "main" "(Program (Expression x))" = .ok (root, arena) ∧
        (arena.runPhase {} .normalization root).outcome = .ok stats := by
  refine ⟨?_, ?_, ?_⟩
  · exact (normalization_ends.1 strayComma 0 rfl (by decide)).1 clogged_strayComma
      { maxPasses := some 5 } 5 rfl
  · have hended := (normalization_ends.1 wrappedName 0 rfl (by decide)).2 not_clogged_wrappedName
      {} rfl
    rwa [show Nat.log 2 (max (wrappedName.expressions 0) 1) + 4 = 5 by decide +kernel] at hended
  · obtain ⟨root, arena, hparse, hkind⟩ :
        ∃ root arena, parseSource "main" "(Program (Expression x))" = .ok (root, arena) ∧
          arena.kind root = .group .program :=
      exists_of_any_parseSource (by decide +kernel)
    obtain ⟨stats, hok⟩ := normalization_ends.2 _ _ root arena hparse hkind {} rfl
    exact ⟨root, arena, stats, hparse, hok⟩

end Arena

end AstPromotion
