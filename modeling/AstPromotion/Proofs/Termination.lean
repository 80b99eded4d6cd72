import AstPromotion.Proofs.Required
import AstPromotion.Proofs.Running

/-! # Whether a run settles

A run settles as soon as the visits so far have left a settled term, and a larger
limit then changes nothing. If every visit is busy and keeps a reason for the
next one to be, no limit is large enough.
-/

namespace AstPromotion

namespace Term

variable {ι : Type} {phase : Phase} {fresh : ι} {term : Term ι}

/-- What a number of visits leave. -/
def advance (phase : Phase) (fresh : ι) : (count : Nat) → Term ι → Term ι
  | 0, term => term
  | count + 1, term => advance phase fresh count (term.visit phase fresh).term

theorem advance_add (first second : Nat) :
    term.advance phase fresh (first + second) =
      (term.advance phase fresh first).advance phase fresh second := by
  induction first generalizing term with
  | zero => rw [Nat.zero_add, advance]
  | succ first ih => rw [Nat.succ_add, advance, advance, ih]

theorem advance_of_settled (hsettled : term.Settled phase) (count : Nat) :
    term.advance phase fresh count = term := by
  induction count with
  | zero => rfl
  | succ count ih => rw [advance, visit_of_settled hsettled, untouched, ih]

/-- Once visits have left a settled term, one more, idle visit ends the run. -/
theorem settle_of_advance {count : Nat} (hsettled : (term.advance phase fresh count).Settled phase) :
    term.settle phase fresh (count + 1) = (true, term.advance phase fresh count) := by
  induction count generalizing term with
  | zero =>
      rw [advance] at hsettled ⊢
      rw [settle, visit_of_settled hsettled]
      rfl
  | succ count ih =>
      rw [settle]
      split
      next hidle =>
          have hterm := settled_of_events_eq_nil (List.isEmpty_iff.mp hidle)
          rw [advance_of_settled hterm, visit_of_settled hterm]
          rfl
      next => exact ih hsettled

/-- If what keeps a visit busy outlasts the visit, a run never settles. -/
theorem settle_of_busy (phase : Phase) (fresh : ι) (property : Term ι → Prop)
    (hbusy : ∀ term, property term → (term.visit phase fresh).events ≠ [])
    (hvisit : ∀ term, property term → property (term.visit phase fresh).term)
    (hterm : property term) (limit : Nat) : (term.settle phase fresh limit).1 = false := by
  induction limit generalizing term with
  | zero => rfl
  | succ limit ih =>
      rw [settle, if_neg fun hidle => hbusy term hterm (List.isEmpty_iff.mp hidle)]
      exact ih (hvisit term hterm)

end Term

namespace Arena

variable {arena : Arena} {phase : Phase} {root : Id}

theorem passes_settle_le (limit : Nat) : (arena.settle phase root limit).passes ≤ limit := by
  induction limit generalizing arena with
  | zero => exact Nat.le_refl 0
  | succ limit ih =>
      simp only [settle]
      split
      · exact Nat.succ_le_succ (Nat.zero_le limit)
      · exact Nat.succ_le_succ ih

/-- A run that does not settle makes all the passes it may. -/
theorem passes_of_unsettled {limit : Nat}
    (hunsettled : (arena.settle phase root limit).settled = false) :
    (arena.settle phase root limit).passes = limit := by
  induction limit generalizing arena with
  | zero => rfl
  | succ limit ih =>
      simp only [settle] at hunsettled ⊢
      split at hunsettled
      next => cases hunsettled
      next hbusy =>
          rw [if_neg hbusy]
          exact congrArg (· + 1) (ih hunsettled)

/-- To a run that settles, a larger limit makes no difference. -/
theorem settle_of_le {limit more : Nat}
    (hsettled : (arena.settle phase root limit).settled = true) (hle : limit ≤ more) :
    arena.settle phase root more = arena.settle phase root limit := by
  induction limit generalizing arena more with
  | zero => cases hsettled
  | succ limit ih =>
      obtain ⟨more, rfl⟩ := Nat.exists_eq_add_of_lt hle
      simp only [settle] at hsettled ⊢
      split
      next => rfl
      next hbusy =>
          rw [if_neg hbusy] at hsettled
          rw [ih hsettled (Nat.le_add_right limit more)]

variable {file : String} {shouldExecute : Bool} {term : Term Id} {config : Config}

/-- A run over a program settles if and only if visits of its abstract tree do. -/
theorem BearsProgram.settled_eq (hprogram : arena.BearsProgram root file shouldExecute term)
    (phase : Phase) (limit : Nat) :
    (arena.settle phase root limit).settled = (term.erase.settle phase () limit).1 := by
  obtain ⟨result, hran⟩ := hprogram.exists_ran phase limit
  exact (congrArg Prod.fst (hran.image (fun _ => ()) () fun _ _ => rfl)).symm

/-- A pass over a program that is settled is idle. -/
theorem BearsProgram.pass_eq_nil (hprogram : arena.BearsProgram root file shouldExecute term)
    (hsettled : term.erase.Settled phase) : (arena.pass phase root).1 = [] := by
  obtain ⟨result, hpassed, -⟩ := hprogram.exists_passed phase
  have himage := hpassed.image (fun _ => ()) () fun _ _ => rfl
  rw [← Term.erase, Term.visit_of_settled hsettled] at himage
  exact (congrArg Residue.events himage).symm

theorem settle_of_idle (hidle : (arena.pass phase root).1 = []) (limit : Nat) :
    arena.settle phase root (limit + 1) =
      { settled := true, passes := 1, events := [], arena := (arena.pass phase root).2 } := by
  simp only [settle, hidle, List.isEmpty_nil, if_pos]

/-- A phase that settles within some number of passes reports that run, if it may make as many. -/
theorem runPhase_of_settled (config : Config) (hkind : arena.kind root = .group .program)
    {limit : Nat}
    (hsettled : (arena.settle phase root limit).settled = true)
    (hlimit : limit ≤ config.maxPasses.getD arena.patience) :
    (arena.runPhase config phase root).outcome = .ok (arena.settle phase root limit).stats ∧
      (arena.runPhase config phase root).arena = (arena.settle phase root limit).arena := by
  rw [runPhase, ensureProgram, if_pos hkind, settle_of_le hsettled hlimit]
  simp only [hsettled, if_pos, and_self]

/-- A phase that has nothing to do makes one pass, if it may. -/
theorem runPhase_of_idle (hkind : arena.kind root = .group .program)
    (hidle : (arena.pass phase root).1 = []) (hlimit : config.maxPasses = none) :
    (arena.runPhase config phase root).outcome = .ok { passes := 1, rewrites := 0 } := by
  rw [runPhase, ensureProgram, if_pos hkind, hlimit, Option.getD_none, patience, settle_of_idle hidle]
  rfl

/-- A phase that does not settle within its limit fails there. -/
theorem runPhase_of_unsettled (hkind : arena.kind root = .group .program) {cap : Nat}
    (hcap : config.maxPasses = some cap)
    (hunsettled : (arena.settle phase root cap).settled = false) :
    (arena.runPhase config phase root).outcome = .error (.passLimit phase cap) := by
  rw [runPhase, ensureProgram, if_pos hkind, hcap, Option.getD_some]
  simp only [hunsettled, Bool.false_eq_true, if_false, passes_of_unsettled hunsettled]

end Arena

end AstPromotion
