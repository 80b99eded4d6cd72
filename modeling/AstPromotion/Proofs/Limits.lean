import AstPromotion.Proofs.Parsed
import AstPromotion.Proofs.Termination

/-! # A limit on the passes only truncates

The idle pass that ends a run counts like the others, and each phase counts anew.
A limit that neither phase reaches goes unnoticed. Under any other limit the
passes that are made are the first ones of the unlimited optimization, and so is
all that is recorded about them.
-/

namespace AstPromotion

/-- An attempt that fails where another one goes on, in the arena that it leaves there. -/
structure Attempt.Truncates {α : Type} (short long : Attempt α) (failure : Failure)
    (arena : Arena) : Prop where
  outcome : short.outcome = .error failure
  arena : short.arena = arena
  log : short.log <+: long.log

namespace Attempt

variable {α β : Type} {short long : Attempt α} {failure : Failure} {arena : Arena}

/-- After a failure nothing else is tried. -/
theorem Truncates.andThen (htruncates : short.Truncates long failure arena)
    (next next' : α → Arena → Attempt β) :
    (short.andThen next).Truncates (long.andThen next') failure arena := by
  rw [Attempt.andThen, Attempt.andThen]
  simp only [htruncates.outcome]
  refine ⟨rfl, htruncates.arena, ?_⟩
  split
  · exact htruncates.log
  · exact htruncates.log.trans (List.prefix_append _ _)

variable {first : Attempt β} {result : β} {next next' : β → Arena → Attempt α}

/-- After a success only what follows on its result matters. -/
theorem andThen_congr (hok : first.outcome = .ok result)
    (hnext : next result first.arena = next' result first.arena) :
    first.andThen next = first.andThen next' := by
  rw [andThen, andThen]
  simp only [hok, hnext]

/-- What succeeded before a failure stays on record. -/
theorem Truncates.after (hok : first.outcome = .ok result)
    (htruncates : (next result first.arena).Truncates (next' result first.arena) failure arena) :
    (first.andThen next).Truncates (first.andThen next') failure arena := by
  rw [Attempt.andThen, Attempt.andThen]
  simp only [hok]
  exact ⟨htruncates.outcome, htruncates.arena,
    (List.prefix_append_right_inj first.log).mpr htruncates.log⟩

end Attempt

namespace Arena

variable {arena : Arena} {phase : Phase} {root : Id} {limit more cap : Nat}

/-! ## One phase -/

/-- Nothing more happens in a run that settles if it may make no more passes than it makes. -/
theorem settle_passes (hsettled : (arena.settle phase root limit).settled = true) :
    arena.settle phase root (arena.settle phase root limit).passes =
      arena.settle phase root limit := by
  induction limit generalizing arena with
  | zero => cases hsettled
  | succ limit ih =>
      simp only [settle] at hsettled ⊢
      split
      next hidle => simp only [settle, hidle, if_true]
      next hbusy =>
          rw [if_neg hbusy] at hsettled
          simp only [settle, hbusy, ih hsettled]
          rfl

/-- A run that settles is the same under every limit that it stays within. -/
theorem settle_of_passes_le (hsettled : (arena.settle phase root limit).settled = true)
    (hle : (arena.settle phase root limit).passes ≤ cap) :
    arena.settle phase root cap = arena.settle phase root limit := by
  have hpasses := settle_passes hsettled
  rw [← hpasses] at hsettled
  rw [settle_of_le hsettled hle, hpasses]

/-- Under a limit that a run exceeds, there is none that settles. -/
theorem unsettled_of_lt_passes (hlt : cap < (arena.settle phase root limit).passes) :
    (arena.settle phase root cap).settled = false := by
  by_contra hsettled
  rw [Bool.not_eq_false] at hsettled
  rw [settle_of_le hsettled (hlt.le.trans (passes_settle_le limit))] at hlt
  exact absurd (passes_settle_le cap) (Nat.not_le_of_lt hlt)

/-- What a run rewrites under a limit, it rewrites first under a larger one. -/
theorem events_settle_prefix (hle : limit ≤ more) :
    (arena.settle phase root limit).events <+: (arena.settle phase root more).events := by
  induction limit generalizing arena more with
  | zero => exact List.nil_prefix
  | succ limit ih =>
      obtain ⟨more, rfl⟩ := Nat.exists_eq_add_of_lt hle
      simp only [settle]
      split
      next => exact List.prefix_rfl
      next => exact List.prefix_append_right_inj _ |>.mpr (ih (Nat.le_add_right limit more))

variable {validate : Bool}

/-- A phase that stays within a limit does not notice it. -/
theorem runPhase_of_passes_le
    (hsettled : (arena.settle phase root arena.patience).settled = true)
    (hle : (arena.settle phase root arena.patience).passes ≤ cap) :
    arena.runPhase { maxPasses := some cap, validate } phase root =
      arena.runPhase { validate } phase root := by
  rw [runPhase, runPhase]
  simp only [Option.getD_some, Option.getD_none, settle_of_passes_le hsettled hle, hsettled, if_true]

/-- A phase that does not stay within a limit makes as many passes as it may, and fails. -/
theorem runPhase_of_lt_passes (hkind : arena.kind root = .group .program)
    (hlt : cap < (arena.settle phase root arena.patience).passes) :
    (arena.runPhase { maxPasses := some cap, validate } phase root).Truncates
      (arena.runPhase { validate } phase root) (.passLimit phase cap)
      (arena.passes root (List.replicate cap phase)) := by
  have hunsettled := unsettled_of_lt_passes hlt
  have hpasses := passes_of_unsettled hunsettled
  have hevents : (arena.settle phase root cap).events <+:
      (arena.settle phase root arena.patience).events :=
    events_settle_prefix (hlt.le.trans (passes_settle_le arena.patience))
  rw [runPhase, runPhase, ensureProgram, if_pos hkind]
  simp only [Option.getD_some, Option.getD_none, hunsettled, Bool.false_eq_true, if_false]
  refine ⟨?_, ?_, ?_⟩
  · rw [hpasses]
  · rw [arena_settle, hpasses]
  · split
    · exact (hevents.map _).trans (List.prefix_append _ _)
    · exact hevents.map _

theorem enterPhase_of_passes_le
    (hsettled : (arena.settle phase root arena.patience).settled = true)
    (hle : (arena.settle phase root arena.patience).passes ≤ cap) :
    arena.enterPhase { maxPasses := some cap, validate } phase root =
      arena.enterPhase { validate } phase root := by
  rw [enterPhase, enterPhase, runPhase_of_passes_le hsettled hle]

theorem enterPhase_of_lt_passes (hkind : arena.kind root = .group .program)
    (hlt : cap < (arena.settle phase root arena.patience).passes) :
    (arena.enterPhase { maxPasses := some cap, validate } phase root).Truncates
      (arena.enterPhase { validate } phase root) (.passLimit phase cap)
      (arena.passes root (List.replicate cap phase)) := by
  have htruncates : (arena.runPhase { maxPasses := some cap, validate } phase root).Truncates
      (arena.runPhase { validate } phase root) _ _ := runPhase_of_lt_passes hkind hlt
  exact ⟨htruncates.outcome, htruncates.arena, List.cons_prefix_cons.mpr ⟨rfl, htruncates.log⟩⟩

/-! ## Both phases -/

/-- What a limit makes of the optimization of a program whose phases settle after the given numbers
of passes. -/
structure Truncated (before : Arena) (root : Id) (validate : Bool) (cap normalization promotion : Nat) :
    Prop where
  unnoticed : normalization ≤ cap → promotion ≤ cap →
    before.optimize root { maxPasses := some cap, validate } = before.optimize root { validate }
  normalizing : cap < normalization →
    (before.optimize root { maxPasses := some cap, validate }).Truncates
      (before.optimize root { validate }) (.passLimit .normalization cap)
      (before.passes root (List.replicate cap .normalization))
  promoting : normalization ≤ cap → cap < promotion →
    (before.optimize root { maxPasses := some cap, validate }).Truncates
      (before.optimize root { validate }) (.passLimit .promotion cap)
      (before.passes root
        (List.replicate normalization .normalization ++ List.replicate cap .promotion))

theorem truncated_of_settled {before : Arena} (hkind : before.kind root = .group .program)
    (hnormal : (before.normalized { validate } root).settled = true)
    (hkind' : (before.normalized { validate } root).arena.kind root = .group .program)
    (hpromoted : (before.promoted { validate } root).settled = true) (cap : Nat) :
    before.Truncated root validate cap (before.normalized { validate } root).passes
      (before.promoted { validate } root).passes := by
  obtain ⟨hfirst, hmiddle⟩ := enterPhase_of_settled hkind hnormal
  refine ⟨fun hle hle' => ?_, fun hlt => ?_, fun hle hlt => ?_⟩
  · rw [optimize, optimize, ensureProgram, if_pos hkind, enterPhase_of_passes_le hnormal hle]
    refine Attempt.andThen_congr hfirst ?_
    rw [hmiddle]
    exact congrArg (Attempt.andThen · _) (enterPhase_of_passes_le hpromoted hle')
  · rw [optimize, optimize, ensureProgram, if_pos hkind]
    exact (enterPhase_of_lt_passes hkind hlt).andThen _ _
  · rw [optimize, optimize, ensureProgram, if_pos hkind, enterPhase_of_passes_le hnormal hle,
      passes_append, normalized, ← arena_settle]
    refine Attempt.Truncates.after hfirst ?_
    rw [hmiddle]
    exact (enterPhase_of_lt_passes hkind' hlt).andThen _ _

end Arena

open Arena

/-- A limit on the passes only truncates. Of a program that was read, each phase settles after some
number of passes. A limit that is no smaller than either goes unnoticed. Under a smaller one the
phase that exceeds it fails, with the limit as the number of its passes, in the arena that the
unlimited optimization goes through after as many passes of that phase, and with no other record
than up to there. -/
theorem truncated_of_parse {file source : String} {root : Id} {before : Arena}
    (hparse : parseSource file source = .ok (root, before))
    (hkind : before.kind root = .group .program) (validate : Bool) :
    ∃ normalization promotion : Stats,
      (before.runPhase { validate } .normalization root).outcome = .ok normalization ∧
      ((before.runPhase { validate } .normalization root).arena.runPhase { validate } .promotion
        root).outcome = .ok promotion ∧
      (before.optimize root { validate }).arena = before.passes root
        (List.replicate normalization.passes .normalization ++
          List.replicate promotion.passes .promotion) ∧
      ∀ cap, before.Truncated root validate cap normalization.passes promotion.passes := by
  obtain ⟨sketch, term, -, hsketch⟩ := exists_bearsSketch hparse hkind
  obtain ⟨hnormal, hpromoted⟩ : (before.normalized { validate } root).settled = true ∧
      (before.promoted { validate } root).settled = true :=
    hsketch.program.settled_of_unlimited hsketch.shallow rfl
  have hkind' := hsketch.program.kind_normalized { validate }
  obtain ⟨hfirst, hmiddle⟩ :=
    runPhase_of_settled { validate } hkind hnormal (Nat.le_refl before.patience)
  have hsecond := (runPhase_of_settled { validate } hkind' hpromoted (Nat.le_refl _)).1
  refine ⟨(before.normalized { validate } root).stats, (before.promoted { validate } root).stats,
    hfirst, ?_, ?_, truncated_of_settled hkind hnormal hkind' hpromoted⟩
  · rw [hmiddle]
    exact hsecond
  · rw [(optimize_of_settled hkind hnormal hkind' hpromoted).1, passes_append, promoted, normalized,
      arena_settle, arena_settle]
    rfl

/-- A statement without children: normalization finds nothing to do, and promotion drops it. -/
def bareStatement : String :=
  "(Program (Statement))"

theorem truncated_of_parse_bareStatement :
    ∃ root before, parseSource "main" bareStatement = .ok (root, before) ∧
      before.kind root = .group .program ∧
      (before.optimize root { maxPasses := some 1 }).Truncates (before.optimize root {})
        (.passLimit .promotion 1) (before.passes root [.normalization, .promotion]) ∧
      before.optimize root { maxPasses := some 2 } = before.optimize root {} := by
  obtain ⟨root, before, hparse, hkind, hfirst, hsecond⟩ :
      ∃ root before, parseSource "main" bareStatement = .ok (root, before) ∧
        before.kind root = .group .program ∧
        (before.runPhase {} .normalization root).outcome.toOption.map Stats.passes = some 1 ∧
        ((before.runPhase {} .normalization root).arena.runPhase {} .promotion
          root).outcome.toOption.map Stats.passes = some 2 :=
    exists_of_any_parseSource (by decide +kernel)
  obtain ⟨normalization, promotion, hnormal, hpromoted, -, htruncated⟩ :=
    truncated_of_parse hparse hkind true
  rw [hnormal] at hfirst
  rw [hpromoted] at hsecond
  have hfirst : normalization.passes = 1 := Option.some.inj hfirst
  have hsecond : promotion.passes = 2 := Option.some.inj hsecond
  rw [hfirst, hsecond] at htruncated
  refine ⟨root, before, hparse, hkind, ?_, ?_⟩
  · exact (htruncated 1).promoting (by decide) (by decide)
  · exact (htruncated 2).unnoticed (by decide) (by decide)

end AstPromotion
