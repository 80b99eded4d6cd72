import AstPromotion.Proofs.Passes
import AstPromotion.Proofs.Settled

/-! # Running the phases on a program

A run of a phase does to the arena what repeated visits do to the term, and
optimization is two such runs and a look at the result. What a program becomes
is settled on terms.
-/

namespace AstPromotion.Arena

variable {arena : Arena} {root : Id} {file : String} {shouldExecute : Bool} {term : Term Id}

/-- A pass leaves no fewer nodes than there were. -/
theorem Passed.size_le {phase : Phase} {before after : Arena} {result : Term Id}
    {events : List Event} (hpassed : Passed phase before term events after result) :
    before.size ≤ after.size :=
  hpassed.transition.size_le

/-- How a run of a phase over a program answers to what becomes of the program's term. -/
structure Ran (phase : Phase) (limit : Nat) (before : Arena) (root : Id) (file : String)
    (shouldExecute : Bool) (term : Term Id) (run : Run) (result : Term Id) : Prop where
  program : run.arena.BearsProgram root file shouldExecute result
  size_le : before.size ≤ run.arena.size
  image : ∀ {κ : Type} (f : Id → κ) (fresh : κ), (∀ id, before.size ≤ id → f id = fresh) →
    (term.map f).settle phase fresh limit = (run.settled, result.map f)

theorem BearsProgram.exists_ran (hprogram : arena.BearsProgram root file shouldExecute term)
    (phase : Phase) (limit : Nat) :
    ∃ result, Ran phase limit arena root file shouldExecute term (arena.settle phase root limit)
      result := by
  induction limit generalizing arena term with
  | zero =>
      exact ⟨term, hprogram, Nat.le_refl _, fun _ _ _ => rfl⟩
  | succ limit ih =>
      obtain ⟨middle, hpassed, hmiddle⟩ := hprogram.exists_passed phase
      obtain ⟨result, hrest⟩ := ih hmiddle
      rw [settle]
      cases hidle : (arena.pass phase root).1.isEmpty with
      | true =>
          simp only [hidle, if_pos]
          refine ⟨middle, hmiddle, hpassed.size_le, ?_⟩
          intro κ f fresh hfresh
          rw [Term.settle, hpassed.image f fresh hfresh, if_pos hidle]
      | false =>
          simp only [hidle, Bool.false_eq_true, if_false]
          refine ⟨result, hrest.program, Nat.le_trans hpassed.size_le hrest.size_le, ?_⟩
          intro κ f fresh hfresh
          rw [Term.settle, hpassed.image f fresh hfresh, if_neg (by rw [hidle]; exact Bool.false_ne_true)]
          exact hrest.image f fresh fun id hid => hfresh id (Nat.le_trans hpassed.size_le hid)

/-- What every visit keeps of the abstract tree, a run keeps. -/
theorem Ran.keeps {phase : Phase} {limit : Nat} {run : Run} {result : Term Id}
    (hran : Ran phase limit arena root file shouldExecute term run result)
    (property : Term Unit → Prop)
    (hvisit : ∀ other, property other → property (other.visit phase ()).term)
    (hterm : property term.erase) : property result.erase := by
  have hsettle : property (term.erase.settle phase () limit).2 :=
    Term.settle_induction property hvisit hterm
  rwa [Term.erase, hran.image (fun _ => ()) () fun _ _ => rfl] at hsettle

/-- What a run leaves that settled is settled. -/
theorem Ran.settled_erase {phase : Phase} {limit : Nat} {run : Run} {result : Term Id}
    (hran : Ran phase limit arena root file shouldExecute term run result)
    (hsettled : run.settled = true) : result.erase.Settled phase := by
  have himage := hran.image (fun _ => ()) () fun _ _ => rfl
  have hresult := Term.settled_of_settle ((congrArg Prod.fst himage).trans hsettled)
  rwa [himage] at hresult

/-! ## Optimization -/

/-- How many passes a phase may make. -/
def limit (arena : Arena) (config : Config) : Nat :=
  config.maxPasses.getD arena.patience

/-- The run of normalization in an optimization. -/
def normalized (arena : Arena) (config : Config) (root : Id) : Run :=
  arena.settle .normalization root (arena.limit config)

/-- The run of promotion in an optimization whose normalization settled. -/
def promoted (arena : Arena) (config : Config) (root : Id) : Run :=
  (arena.normalized config root).arena.settle .promotion root
    ((arena.normalized config root).arena.limit config)

/-- How a phase fails that has used up its passes. -/
def exhausted (config : Config) (phase : Phase) (passes : Nat) : Failure :=
  match config.maxPasses with
  | some _ => .passLimit phase passes
  | none => .endless phase

theorem enterPhase_of_settled {config : Config} {phase : Phase}
    (hkind : arena.kind root = .group .program)
    (hsettled : (arena.settle phase root (arena.limit config)).settled = true) :
    (arena.enterPhase config phase root).outcome =
        .ok (arena.settle phase root (arena.limit config)).stats ∧
      (arena.enterPhase config phase root).arena =
        (arena.settle phase root (arena.limit config)).arena := by
  rw [limit] at hsettled
  rw [enterPhase, runPhase, ensureProgram, if_pos hkind, limit]
  simp only [hsettled, if_pos, and_self]

theorem enterPhase_of_unsettled {config : Config} {phase : Phase}
    (hkind : arena.kind root = .group .program)
    (hsettled : (arena.settle phase root (arena.limit config)).settled = false) :
    (arena.enterPhase config phase root).outcome =
        .error (exhausted config phase (arena.settle phase root (arena.limit config)).passes) ∧
      (arena.enterPhase config phase root).arena =
        (arena.settle phase root (arena.limit config)).arena := by
  rw [limit] at hsettled
  rw [enterPhase, runPhase, ensureProgram, if_pos hkind, limit]
  simp only [hsettled, Bool.false_eq_true, if_false]
  exact ⟨rfl, trivial⟩

theorem optimize_of_unsettled {config : Config} (hkind : arena.kind root = .group .program)
    (hnormal : (arena.normalized config root).settled = false) :
    (arena.optimize root config).arena = (arena.normalized config root).arena ∧
      (arena.optimize root config).outcome =
        .error (exhausted config .normalization (arena.normalized config root).passes) := by
  obtain ⟨houtcome, harena⟩ := enterPhase_of_unsettled hkind hnormal
  rw [optimize, ensureProgram, if_pos hkind]
  simp only [Attempt.andThen, houtcome]
  exact ⟨harena, rfl⟩

theorem optimize_of_unpromoted {config : Config} (hkind : arena.kind root = .group .program)
    (hnormal : (arena.normalized config root).settled = true)
    (hkind' : (arena.normalized config root).arena.kind root = .group .program)
    (hpromoted : (arena.promoted config root).settled = false) :
    (arena.optimize root config).arena = (arena.promoted config root).arena ∧
      (arena.optimize root config).outcome =
        .error (exhausted config .promotion (arena.promoted config root).passes) := by
  obtain ⟨hfirst, hmiddle⟩ := enterPhase_of_settled hkind hnormal
  obtain ⟨hsecond, hlast⟩ := enterPhase_of_unsettled hkind' hpromoted
  rw [normalized] at hsecond hlast
  rw [optimize, ensureProgram, if_pos hkind]
  simp only [Attempt.andThen, hfirst, hmiddle, hsecond]
  exact ⟨hlast, rfl⟩

theorem optimize_of_settled {config : Config} (hkind : arena.kind root = .group .program)
    (hnormal : (arena.normalized config root).settled = true)
    (hkind' : (arena.normalized config root).arena.kind root = .group .program)
    (hpromoted : (arena.promoted config root).settled = true) :
    (arena.optimize root config).arena = (arena.promoted config root).arena ∧
      (arena.optimize root config).outcome = (do
        if config.validate then (arena.promoted config root).arena.validate root
        return {
          normalization := (arena.normalized config root).stats
          promotion := (arena.promoted config root).stats }) := by
  obtain ⟨hfirst, hmiddle⟩ := enterPhase_of_settled hkind hnormal
  obtain ⟨hsecond, hlast⟩ := enterPhase_of_settled hkind' hpromoted
  rw [normalized] at hsecond hlast
  rw [optimize, ensureProgram, if_pos hkind]
  simp only [Attempt.andThen, hfirst, hmiddle, hsecond, hlast]
  exact ⟨rfl, rfl⟩

/-- The root is still a program when promotion starts. -/
theorem BearsProgram.kind_normalized (hprogram : arena.BearsProgram root file shouldExecute term)
    (config : Config) : (arena.normalized config root).arena.kind root = .group .program := by
  obtain ⟨normal, hnormal⟩ := hprogram.exists_ran .normalization (arena.limit config)
  exact hnormal.program.kind_eq

/-- How an optimization ends: normalization does not settle, or promotion does not, or both do and
it is for validation to decide. -/
theorem BearsProgram.optimize_cases
    (hprogram : arena.BearsProgram root file shouldExecute term) (config : Config) :
    ((arena.normalized config root).settled = false ∧
      (arena.optimize root config).arena = (arena.normalized config root).arena ∧
        (arena.optimize root config).outcome =
          .error (exhausted config .normalization (arena.normalized config root).passes)) ∨
    ((arena.normalized config root).settled = true ∧ (arena.promoted config root).settled = false ∧
      (arena.optimize root config).arena = (arena.promoted config root).arena ∧
        (arena.optimize root config).outcome =
          .error (exhausted config .promotion (arena.promoted config root).passes)) ∨
    ((arena.normalized config root).settled = true ∧ (arena.promoted config root).settled = true ∧
      (arena.optimize root config).arena = (arena.promoted config root).arena ∧
        (arena.optimize root config).outcome = (do
          if config.validate then (arena.promoted config root).arena.validate root
          return {
            normalization := (arena.normalized config root).stats
            promotion := (arena.promoted config root).stats })) := by
  have hkind := hprogram.kind_eq
  have hkind' := hprogram.kind_normalized config
  cases hnormal : (arena.normalized config root).settled with
  | false => exact Or.inl ⟨rfl, optimize_of_unsettled hkind hnormal⟩
  | true =>
      cases hpromoted : (arena.promoted config root).settled with
      | false => exact Or.inr (Or.inl ⟨rfl, rfl, optimize_of_unpromoted hkind hnormal hkind' hpromoted⟩)
      | true => exact Or.inr (Or.inr ⟨rfl, rfl, optimize_of_settled hkind hnormal hkind' hpromoted⟩)

/-- An optimization that succeeds has settled both phases, and has validated if it was to. -/
theorem BearsProgram.of_optimize_eq_ok
    (hprogram : arena.BearsProgram root file shouldExecute term) {config : Config} {report : Report}
    (hok : (arena.optimize root config).outcome = .ok report) :
    (arena.normalized config root).settled = true ∧ (arena.promoted config root).settled = true ∧
      (arena.optimize root config).arena = (arena.promoted config root).arena ∧
        (config.validate = true → (arena.promoted config root).arena.validate root = .ok ()) := by
  rcases hprogram.optimize_cases config with ⟨-, -, houtcome⟩ | ⟨-, -, -, houtcome⟩ |
    ⟨hnormal, hpromoted, harena, houtcome⟩
  · rw [houtcome] at hok
    cases hok
  · rw [houtcome] at hok
    cases hok
  · refine ⟨hnormal, hpromoted, harena, fun hvalidate => ?_⟩
    rw [houtcome, if_pos hvalidate] at hok
    cases hvalid : (arena.promoted config root).arena.validate root with
    | ok => rfl
    | error failure =>
        rw [hvalid] at hok
        cases hok

/-- A leftover is reported after both phases have settled, and it is validation that finds it. -/
theorem BearsProgram.of_optimize_eq_unreduced
    (hprogram : arena.BearsProgram root file shouldExecute term) {config : Config}
    {leftover : Leftover}
    (hrejected : (arena.optimize root config).outcome = .error (.unreduced leftover)) :
    (arena.normalized config root).settled = true ∧ (arena.promoted config root).settled = true ∧
      (arena.promoted config root).arena.validate root = .error (.unreduced leftover) := by
  have hexhausted (phase : Phase) (passes : Nat) :
      exhausted config phase passes ≠ .unreduced leftover := by
    rw [exhausted]
    split <;> exact (nomatch ·)
  rcases hprogram.optimize_cases config with ⟨-, -, houtcome⟩ | ⟨-, -, -, houtcome⟩ |
    ⟨hnormal, hpromoted, -, houtcome⟩
  · rw [houtcome] at hrejected
    exact absurd (Except.error.inj hrejected) (hexhausted _ _)
  · rw [houtcome] at hrejected
    exact absurd (Except.error.inj hrejected) (hexhausted _ _)
  · refine ⟨hnormal, hpromoted, ?_⟩
    rw [houtcome] at hrejected
    by_cases hvalidate : config.validate = true
    · rw [if_pos hvalidate] at hrejected
      cases hvalid : (arena.promoted config root).arena.validate root with
      | ok =>
          rw [hvalid] at hrejected
          cases hrejected
      | error failure =>
          rw [hvalid] at hrejected
          cases hrejected
          rfl
    · rw [if_neg hvalidate] at hrejected
      cases hrejected

/-- Only programs are optimized. -/
theorem kind_of_optimize_eq_ok {config : Config} {report : Report}
    (hok : (arena.optimize root config).outcome = .ok report) :
    arena.kind root = .group .program := by
  by_contra hkind
  rw [optimize, ensureProgram, if_neg hkind] at hok
  cases hok

end AstPromotion.Arena
