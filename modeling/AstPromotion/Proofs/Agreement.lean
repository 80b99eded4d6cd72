import AstPromotion.Proofs.Isomorphism
import AstPromotion.Proofs.Normalization.Termination
import AstPromotion.Proofs.Promotion.Termination

/-! # Only the abstract tree matters

Passes over isomorphic programs make the same rewrites and leave isomorphic
programs, whatever else is in the two arenas. How many passes an unlimited run
may make depends on the size of its arena, but a run that settles at all does so
long before that. So optimization has the same outcome and the same log.
-/

namespace AstPromotion

namespace Arena

variable {first second : Arena} {root root' : Id}

/-- Isomorphic programs carry the same data and have the same abstract tree. -/
theorem Isomorphic.exists_programs (hiso : first.Isomorphic root second root')
    (hkind : first.kind root = .group .program) :
    ∃ file shouldExecute term other, first.BearsProgram root file shouldExecute term ∧
      second.BearsProgram root' file shouldExecute other ∧ term.erase = other.erase := by
  obtain ⟨file, shouldExecute, term, hprogram⟩ := hiso.tree.exists_bearsProgram hkind
  obtain ⟨other, hlabel, hbears'⟩ := hiso.tree'.exists_bears
  have herase : term.erase = other.erase := by
    rw [← isomorphic_iff hprogram.bears hbears', hprogram.label, hlabel]
    exact hiso
  refine ⟨file, shouldExecute, term, other, hprogram, ⟨hbears', hlabel, ?_⟩, herase⟩
  obtain ⟨items, hform⟩ := hprogram.form
  have hform' : other.erase.form = .group (.program file shouldExecute) (items.map Term.erase) := by
    rw [← herase, Term.erase, Term.form_map, hform]
    rfl
  rw [Term.erase, Term.form_map] at hform'
  obtain ⟨items', hitems, -⟩ := Form.exists_of_map_eq_group hform'
  exact ⟨items', hitems⟩

/-- A pass over isomorphic programs makes the same rewrites and leaves isomorphic programs. -/
theorem Isomorphic.pass (hiso : first.Isomorphic root second root')
    (hkind : first.kind root = .group .program) (phase : Phase) :
    (first.pass phase root).1 = (second.pass phase root').1 ∧
      (first.pass phase root).2.Isomorphic root (second.pass phase root').2 root' ∧
        (first.pass phase root).2.kind root = .group .program := by
  obtain ⟨file, shouldExecute, term, other, hprogram, hprogram', herase⟩ :=
    hiso.exists_programs hkind
  obtain ⟨result, hpassed, hresult⟩ := hprogram.exists_passed phase
  obtain ⟨result', hpassed', hresult'⟩ := hprogram'.exists_passed phase
  have himage := hpassed.image (fun _ => ()) () fun _ _ => rfl
  have himage' := hpassed'.image (fun _ => ()) () fun _ _ => rfl
  have hsame : ({ term := result.erase, gone := false, events := (first.pass phase root).1 } :
      Residue Unit) =
        { term := result'.erase, gone := false, events := (second.pass phase root').1 } := by
    rw [← Term.erase] at himage himage'
    exact himage.symm.trans (herase ▸ himage')
  have hiso' := (isomorphic_iff hresult.bears hresult'.bears).mpr (congrArg Residue.term hsame)
  rw [hresult.label, hresult'.label] at hiso'
  exact ⟨congrArg Residue.events hsame, hiso', hresult.kind_eq⟩

/-- Two runs that do the same to isomorphic trees. -/
structure SameRun (root root' : Id) (run run' : Run) : Prop where
  settled : run.settled = run'.settled
  passes : run.passes = run'.passes
  events : run.events = run'.events
  isomorphic : run.arena.Isomorphic root run'.arena root'

theorem SameRun.stats {run run' : Run} (hsame : SameRun root root' run run') :
    run.stats = run'.stats := by
  rw [Run.stats, Run.stats, hsame.passes, hsame.events]

/-- With the same limit, runs over isomorphic programs do the same. -/
theorem Isomorphic.settle (hiso : first.Isomorphic root second root')
    (hkind : first.kind root = .group .program) (phase : Phase) (limit : Nat) :
    SameRun root root' (first.settle phase root limit) (second.settle phase root' limit) := by
  induction limit generalizing first second with
  | zero => exact ⟨rfl, rfl, rfl, hiso⟩
  | succ limit ih =>
      obtain ⟨hevents, hpassed, hprogram⟩ := hiso.pass hkind phase
      simp only [Arena.settle, ← hevents]
      by_cases hidle : (first.pass phase root).1.isEmpty = true
      · rw [if_pos hidle, if_pos hidle]
        exact ⟨rfl, rfl, rfl, hpassed⟩
      · rw [if_neg hidle, if_neg hidle]
        have hrest := ih hpassed hprogram
        exact {
          settled := hrest.settled
          passes := congrArg (· + 1) hrest.passes
          events := congrArg ((first.pass phase root).1 ++ ·) hrest.events
          isomorphic := hrest.isomorphic }

/-- A phase that settles at all settles within the passes that an unlimited run makes. -/
theorem settled_of_patience (htree : first.IsTree root) (hkind : first.kind root = .group .program)
    {phase : Phase} {limit : Nat} (hsettled : (first.settle phase root limit).settled = true) :
    (first.settle phase root first.patience).settled = true := by
  obtain ⟨file, shouldExecute, term, hprogram⟩ := htree.exists_bearsProgram hkind
  have hcapped : (first.runPhase { maxPasses := some limit } phase root).outcome ≠
      .error (.passLimit phase limit) := by
    rw [(runPhase_of_settled { maxPasses := some limit } hkind hsettled (Nat.le_refl _)).1]
    exact (nomatch ·)
  cases phase with
  | normalization =>
      have hclogged : ¬ first.Clogged root := fun hclogged =>
        hcapped (hprogram.outcome_of_clogged hclogged rfl)
      have hfew := hprogram.settled_of_not_clogged hclogged
      rw [settle_of_le hfew hprogram.passes_le_patience, hfew]
  | promotion =>
      have hretains : ¬ first.Retains root first.Void := fun hretains =>
        hcapped (hprogram.outcome_of_retains_void hretains rfl)
      have htwo : (first.settle .promotion root 2).settled = true := by
        rcases hprogram.settle_of_not_retains_void hretains with ⟨-, hrun⟩ | ⟨-, hrun⟩
        · rw [hrun]
        · rw [hrun]
      have hpatience : 2 ≤ first.patience := by
        rw [patience]
        omega
      rw [settle_of_le htwo hpatience, htwo]

/-- Unlimited runs over isomorphic programs do the same if one of them settles. -/
theorem Isomorphic.settle_patience (hiso : first.Isomorphic root second root')
    (hkind : first.kind root = .group .program) {phase : Phase}
    (hsettled : (first.settle phase root first.patience).settled = true) :
    SameRun root root' (first.settle phase root first.patience)
      (second.settle phase root' second.patience) := by
  have hsame := hiso.settle hkind phase first.patience
  have hsettled' : (second.settle phase root' first.patience).settled = true := by
    rw [← hsame.settled, hsettled]
  have hpatient := settled_of_patience hiso.tree' (hiso.kind_eq ▸ hkind) hsettled'
  -- Of two runs that settle, the one with the larger limit stops where the other one does.
  have hstop : second.settle phase root' first.patience =
      second.settle phase root' second.patience := by
    rcases Nat.le_total first.patience second.patience with hle | hle
    · exact (settle_of_le hsettled' hle).symm
    · exact settle_of_le hpatient hle
  rwa [hstop] at hsame

end Arena

/-! ## Attempts -/

/-- An attempt that does not go on forever. -/
def Attempt.Ends {α : Type} (attempt : Attempt α) : Prop :=
  ∀ phase, attempt.outcome ≠ .error (.endless phase)

/-- Two attempts that cannot be told apart without looking at ids. -/
structure Attempt.Agree {α : Type} (root root' : Id) (first second : Attempt α) : Prop where
  outcome : first.outcome = second.outcome
  log : first.log = second.log
  isomorphic : first.arena.Isomorphic root second.arena root'

namespace Attempt

variable {α β : Type} {root root' : Id} {first second : Attempt α}
  {after after' : α → Arena → Attempt β}

theorem Ends.of_andThen (hends : (first.andThen after).Ends) : first.Ends := by
  intro phase hendless
  apply hends phase
  rw [andThen, hendless]

theorem Ends.of_ok (hends : (first.andThen after).Ends) {result : α}
    (hok : first.outcome = .ok result) : (after result first.arena).Ends := by
  intro phase hendless
  apply hends phase
  rw [andThen, hok]
  exact hendless

/-- Attempts one after another agree if each agrees with its counterpart. -/
theorem Agree.andThen (hagree : Agree root root' first second)
    (hafter : ∀ result, first.outcome = .ok result →
      Agree root root' (after result first.arena) (after' result second.arena)) :
    Agree root root' (first.andThen after) (second.andThen after') := by
  rw [Attempt.andThen, Attempt.andThen, ← hagree.outcome]
  cases hfirst : first.outcome with
  | error failure => exact ⟨rfl, hagree.log, hagree.isomorphic⟩
  | ok result =>
      have hrest := hafter result hfirst
      refine ⟨hrest.outcome, ?_, hrest.isomorphic⟩
      dsimp only
      rw [hagree.log, hrest.log]

end Attempt

namespace Arena

variable {first second : Arena} {root root' : Id} {config : Config}

open Attempt (Agree)

theorem Isomorphic.ensureProgram_eq (hiso : first.Isomorphic root second root') :
    first.ensureProgram root = second.ensureProgram root' := by
  rw [ensureProgram, ensureProgram, hiso.kind_eq]

/-- If a phase ends, its runs over isomorphic programs do the same. -/
theorem Isomorphic.settle_limit (hiso : first.Isomorphic root second root')
    (hkind : first.kind root = .group .program) {phase : Phase}
    (hends : (first.runPhase config phase root).Ends) :
    SameRun root root' (first.settle phase root (config.maxPasses.getD first.patience))
      (second.settle phase root' (config.maxPasses.getD second.patience)) := by
  cases hlimit : config.maxPasses with
  | some cap => exact hiso.settle hkind phase cap
  | none =>
      apply hiso.settle_patience hkind
      by_contra hunsettled
      apply hends phase
      rw [runPhase, ensureProgram, if_pos hkind, hlimit]
      simp only [Option.getD_none, hunsettled, if_false]

theorem Isomorphic.runPhase (hiso : first.Isomorphic root second root') {phase : Phase}
    (hends : (first.runPhase config phase root).Ends) :
    Agree root root' (first.runPhase config phase root) (second.runPhase config phase root') := by
  by_cases hkind : first.kind root = .group .program
  · have hsame := hiso.settle_limit hkind hends
    have hkind' : second.kind root' = .group .program := hiso.kind_eq ▸ hkind
    rw [Arena.runPhase, Arena.runPhase, ensureProgram, ensureProgram, if_pos hkind, if_pos hkind']
    simp only [← hsame.settled, ← hsame.stats, ← hsame.passes, ← hsame.events]
    split
    · exact ⟨rfl, rfl, hsame.isomorphic⟩
    · exact ⟨rfl, rfl, hsame.isomorphic⟩
  · rw [Arena.runPhase, Arena.runPhase, ← hiso.ensureProgram_eq, ensureProgram, if_neg hkind]
    exact ⟨rfl, rfl, hiso⟩

theorem Isomorphic.enterPhase (hiso : first.Isomorphic root second root') {phase : Phase}
    (hends : (first.enterPhase config phase root).Ends) :
    Agree root root' (first.enterPhase config phase root) (second.enterPhase config phase root') := by
  have hagree := hiso.runPhase hends
  exact ⟨hagree.outcome, congrArg (Record.started phase :: ·) hagree.log, hagree.isomorphic⟩

/-- Only the abstract tree matters. If what is reachable from two roots is the same tree up to the
names of its nodes, and optimization ends on the one, then on the other it has the same outcome and
the same log, and the trees that are left are again the same up to names. -/
theorem agree_of_isomorphic (hiso : first.Isomorphic root second root')
    (hends : (first.optimize root config).Ends) :
    Agree root root' (first.optimize root config) (second.optimize root' config) := by
  by_cases hkind : first.kind root = .group .program
  · have hkind' : second.kind root' = .group .program := hiso.kind_eq ▸ hkind
    rw [optimize, ensureProgram, if_pos hkind] at hends ⊢
    rw [optimize, ensureProgram, if_pos hkind']
    have hnormal := hiso.enterPhase hends.of_andThen
    refine hnormal.andThen fun normalization hok => ?_
    have hpromoted := hnormal.isomorphic.enterPhase (hends.of_ok hok).of_andThen
    refine hpromoted.andThen fun promotion _ => ?_
    refine ⟨?_, rfl, hpromoted.isomorphic⟩
    dsimp only
    rw [hpromoted.isomorphic.validate_eq]
  · rw [optimize, optimize, ← hiso.ensureProgram_eq, ensureProgram, if_neg hkind]
    exact ⟨rfl, rfl, hiso⟩

/-- A declaration as a reader leaves it. -/
def freshDeclaration : Arena where
  nodes := #[
    { form := .leaf .keyword (.raw "let"), parent := some 2 },
    { form := .leaf (.literal .identifier) (.raw "x"), parent := some 2 },
    { form := .group (.provisional .statement) [0, 1], parent := some 3 },
    { form := .group (.program "main" true) [2] }]

/-- The same declaration between discarded nodes, with stale parents and build times. -/
def staleDeclaration : Arena where
  nodes := #[
    { form := .group (.program "main" true) [4], parent := some 3 },
    { form := .classDefinition 5, parent := some 0, buildTime := some 7 },
    { form := .leaf (.literal .identifier) (.raw "x") },
    { form := .binary 2 2 4 },
    { form := .group (.provisional .statement) [5, 2], parent := some 1, buildTime := some 2 },
    { form := .leaf .keyword (.raw "let"), parent := some 3 }]

theorem agree_declarations :
    freshDeclaration.Isomorphic 3 staleDeclaration 0 ∧ (freshDeclaration.optimize 3).Ends ∧
      Agree 3 0 (freshDeclaration.optimize 3) (staleDeclaration.optimize 0) := by
  have hiso : freshDeclaration.Isomorphic 3 staleDeclaration 0 :=
    isomorphic_of_forall (f := fun id => [5, 2, 4, 0].getD id 0) (by decide) (by decide) rfl
      (by decide)
  have hends : (freshDeclaration.optimize 3).Ends := by
    have hok : (freshDeclaration.optimize 3).outcome.isOk = true := by decide +kernel
    intro phase hendless
    rw [hendless] at hok
    cases hok
  exact ⟨hiso, hends, agree_of_isomorphic hiso hends⟩

end Arena

end AstPromotion
