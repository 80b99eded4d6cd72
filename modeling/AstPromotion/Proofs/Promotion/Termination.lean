import AstPromotion.Proofs.Promotion.Void
import AstPromotion.Proofs.Termination

/-! # When promotion ends

Promotion of a program ends if and only if no required field holds a void
statement. If it ends, only the first pass has anything to do.
-/

namespace AstPromotion.Arena

/-- A statement in which there are at most void statements. -/
inductive Void (arena : Arena) : Id → Prop
  | intro {id : Id} (hkind : arena.kind id = .group (.provisional .statement))
      (hchildren : ∀ child ∈ arena.children id, Void arena child) : Void arena id

variable {arena : Arena} {root : Id} {file : String} {shouldExecute : Bool} {term : Term Id}
  {config : Config}

theorem Holds.void_iff (hholds : arena.Holds term) : arena.Void term.label ↔ term.Void := by
  induction term using Term.induction with
  | step term ih =>
      have hbelow := (holds_iff.mp hholds).2
      constructor
      · rintro ⟨hkind, hchildren⟩
        rw [hholds.children_eq, List.forall_mem_map] at hchildren
        refine .intro (by rw [← hholds.kind_eq, hkind]) fun child hchild => ?_
        exact (ih child hchild (hbelow child hchild)).mp (hchildren child hchild)
      · intro hvoid
        refine .intro (by rw [hholds.kind_eq, hvoid.kind_eq]) ?_
        rw [hholds.children_eq, List.forall_mem_map]
        intro child hchild
        exact (ih child hchild (hbelow child hchild)).mpr (hvoid.of_mem_children hchild)

theorem BearsProgram.retains_void_iff (hprogram : arena.BearsProgram root file shouldExecute term) :
    arena.Retains root arena.Void ↔ term.erase.Retains Term.Void := by
  rw [← hprogram.label, Term.erase, Term.retains_map]
  refine hprogram.bears.retains_iff fun inner hinner => ?_
  rw [(hprogram.bears.holds.of_mem hinner).void_iff, Term.void_map]

/-- A void statement in a required field keeps every pass busy. -/
theorem BearsProgram.outcome_of_retains_void
    (hprogram : arena.BearsProgram root file shouldExecute term)
    (hretains : arena.Retains root arena.Void) {cap : Nat} (hcap : config.maxPasses = some cap) :
    (arena.runPhase config .promotion root).outcome = .error (.passLimit .promotion cap) := by
  apply runPhase_of_unsettled hprogram.kind_eq hcap
  rw [hprogram.settled_eq]
  exact Term.settle_of_busy .promotion () (Term.Retains Term.Void)
    (fun _ hretains => (Promotion.retains_promote () hretains).2.2)
    (fun _ hretains => (Promotion.retains_promote () hretains).2.1)
    (hprogram.retains_void_iff.mp hretains) cap

/-- Without one, a pass leaves a program that is settled. -/
theorem BearsProgram.exists_promoted (hprogram : arena.BearsProgram root file shouldExecute term)
    (hretains : ¬ arena.Retains root arena.Void) :
    ∃ result, (arena.pass .promotion root).2.BearsProgram root file shouldExecute result ∧
      result.erase.Settled .promotion := by
  obtain ⟨result, hpassed, hresult⟩ := hprogram.exists_passed .promotion
  have himage := hpassed.image (fun _ => ()) () fun _ _ => rfl
  have hstays := congrArg Residue.gone himage
  have hterm := congrArg Residue.term himage
  have hsettled :=
    Promotion.settled_promote_of_not_retains (hprogram.retains_void_iff.not.mp hretains) hstays
  rw [Term.visit] at hterm
  rw [Term.erase, hterm] at hsettled
  exact ⟨result, hresult, hsettled⟩

/-- Two passes are enough then, and what they leave is settled. -/
theorem BearsProgram.settle_of_not_retains_void
    (hprogram : arena.BearsProgram root file shouldExecute term)
    (hretains : ¬ arena.Retains root arena.Void) :
    (arena.pass .promotion root).1 = [] ∧
        arena.settle .promotion root 2 =
          { settled := true, passes := 1, events := [], arena := (arena.pass .promotion root).2 } ∨
      ((arena.pass .promotion root).2.pass .promotion root).1 = [] ∧
        arena.settle .promotion root 2 =
          { settled := true, passes := 2, events := (arena.pass .promotion root).1
            arena := ((arena.pass .promotion root).2.pass .promotion root).2 } := by
  obtain ⟨result, hresult, hsettled⟩ := hprogram.exists_promoted hretains
  have hsecond := hresult.pass_eq_nil hsettled
  cases hfirst : (arena.pass .promotion root).1 with
  | nil => exact Or.inl ⟨rfl, settle_of_idle hfirst 1⟩
  | cons event rest =>
      refine Or.inr ⟨hsecond, ?_⟩
      simp only [settle, hfirst, hsecond, List.isEmpty_cons, List.isEmpty_nil, Bool.false_eq_true,
        if_false, if_pos, List.append_nil]

/-- Whether promotion ends. On a program whose reachable part is a tree it fails at every cap if a
required field holds a void statement. Otherwise, without a cap, it succeeds after one idle pass or
after a pass that does all there is to do and an idle one; running it again then does nothing. -/
theorem promotion_ends (arena : Arena) (root : Id) (hkind : arena.kind root = .group .program)
    (htree : arena.IsTree root) :
    (arena.Retains root arena.Void → ∀ (config : Config) (cap : Nat), config.maxPasses = some cap →
      (arena.runPhase config .promotion root).outcome = .error (.passLimit .promotion cap)) ∧
    (¬ arena.Retains root arena.Void → ∀ config : Config, config.maxPasses = none →
      ((arena.runPhase config .promotion root).outcome = .ok { passes := 1, rewrites := 0 } ∨
        (arena.runPhase config .promotion root).outcome =
            .ok { passes := 2, rewrites := (arena.pass .promotion root).1.length } ∧
          ((arena.pass .promotion root).2.pass .promotion root).1 = []) ∧
      ((arena.runPhase config .promotion root).arena.runPhase config .promotion root).outcome =
        .ok { passes := 1, rewrites := 0 }) := by
  obtain ⟨file, shouldExecute, term, hprogram⟩ := htree.exists_bearsProgram hkind
  constructor
  · intro hretains config cap
    exact hprogram.outcome_of_retains_void hretains
  · intro hretains config hlimit
    have hruns := hprogram.settle_of_not_retains_void hretains
    have hsettled : (arena.settle .promotion root 2).settled = true := by
      rcases hruns with ⟨-, hrun⟩ | ⟨-, hrun⟩ <;> rw [hrun]
    have hpatience : 2 ≤ config.maxPasses.getD arena.patience := by
      rw [hlimit, Option.getD_none, patience]
      omega
    obtain ⟨houtcome, harena⟩ := runPhase_of_settled config hkind hsettled hpatience
    rw [houtcome, harena]
    refine ⟨?_, ?_⟩
    · rcases hruns with ⟨-, hrun⟩ | ⟨hidle, hrun⟩
      · rw [hrun]
        exact Or.inl rfl
      · rw [hrun]
        exact Or.inr ⟨rfl, hidle⟩
    · obtain ⟨result, hran⟩ := hprogram.exists_ran .promotion 2
      have hidle := hran.program.pass_eq_nil (hran.settled_erase hsettled)
      exact runPhase_of_idle hran.program.kind_eq hidle hlimit

/-- A class definition whose literal is an empty statement. -/
def emptyClass : Arena where
  nodes := #[
    { form := .group (.program "main" true) [1] },
    { form := .classDefinition 2 },
    { form := .group (.provisional .statement) [] }]

/-- A statement that holds an empty statement, before a name to be unwrapped. -/
def emptyStatement : Arena where
  nodes := #[
    { form := .group (.program "main" true) [1, 3] },
    { form := .group (.provisional .statement) [2] },
    { form := .group (.provisional .statement) [] },
    { form := .group (.provisional .temporary) [4] },
    { form := .leaf (.literal .identifier) (.name "x") }]

theorem emptyClass_retains : emptyClass.Retains 0 emptyClass.Void :=
  ⟨1, .child .root List.mem_cons_self, 2, List.mem_cons_self, .intro rfl (List.forall_mem_nil _)⟩

theorem emptyStatement_not_retains : ¬ emptyStatement.Retains 0 emptyStatement.Void :=
  not_retains_of_required (by decide)

theorem promotion_ends_emptyStatement :
    (emptyClass.runPhase { maxPasses := some 3 } .promotion 0).outcome =
        .error (.passLimit .promotion 3) ∧
      ((emptyStatement.runPhase {} .promotion 0).arena.runPhase {} .promotion 0).outcome =
        .ok { passes := 1, rewrites := 0 } := by
  constructor
  · exact (promotion_ends emptyClass 0 rfl (by decide)).1 emptyClass_retains
      { maxPasses := some 3 } 3 rfl
  · exact ((promotion_ends emptyStatement 0 rfl (by decide)).2 emptyStatement_not_retains
      {} rfl).2

end AstPromotion.Arena
