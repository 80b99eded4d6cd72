import AstPromotion.Optimization
import AstPromotion.Proofs.Reachable
import AstPromotion.Proofs.Simulation

/-! # Passes over a program

A pass over a program visits the program's term. The program itself matches no
rule, so passes can be made one after another on the same root, whatever their
phases, and a run of a phase is a number of passes.
-/

namespace AstPromotion.Arena

/-- How a pass over a program answers to what becomes of the program's term. -/
structure Passed (phase : Phase) (before : Arena) (term : Term Id) (events : List Event)
    (after : Arena) (result : Term Id) : Prop where
  transition : Transition before term after result
  linked : after.Linked result
  label : result.label = term.label
  image : ∀ {κ : Type} (f : Id → κ) (fresh : κ), (∀ id, before.size ≤ id → f id = fresh) →
    (term.map f).visit phase fresh = { term := result.map f, gone := false, events }

/-- An id that is already taken, as itself. -/
def known (size : Nat) (id : Id) : Option Id :=
  if id < size then some id else none

theorem known_of_le {size : Nat} {id : Id} (hid : size ≤ id) : known size id = none :=
  if_neg (Nat.not_lt_of_le hid)

theorem eq_of_known_eq_some {size : Nat} {id other : Id} (hknown : known size id = some other) :
    id = other := by
  rw [known] at hknown
  split at hknown
  · exact Option.some.inj hknown
  · cases hknown

theorem exists_passed {arena : Arena} {term : Term Id} (hbears : arena.Bears term)
    (hkind : term.kind.isContainer = true) (phase : Phase) :
    ∃ result, Passed phase arena term (arena.pass phase term.label).1
      (arena.pass phase term.label).2 result := by
  obtain ⟨residue, hvisited⟩ := exists_visited phase hbears.length_le hbears
  have hvisit {κ : Type} (f : Id → κ) (fresh : κ) (hfresh : ∀ id, arena.size ≤ id → f id = fresh) :
      residue.map f = {
        term := Term.rebuild (f term.label) ((term.map f).form.map (Term.visit phase fresh))
        gone := false
        events := Term.eventsBelow ((term.map f).form.map (Term.visit phase fresh)) } := by
    rw [← hvisited.image f fresh hfresh, Term.visit_of_container _ _ (by rwa [Term.kind_map]),
      Term.label_map]
  have hknown := hvisit (known arena.size) none fun id hid => known_of_le hid
  have hgone : residue.gone = false := congrArg Residue.gone hknown
  have hlabel : residue.term.label = term.label := by
    have hlabel := congrArg (fun residue => residue.term.label) hknown
    simp only [Residue.map, Term.label_map, Term.rebuild, Term.label_node] at hlabel
    rw [known, known, if_pos hbears.root_inside] at hlabel
    exact eq_of_known_eq_some hlabel
  refine ⟨residue.term, ?_⟩
  exact {
    transition := hvisited.transition
    linked := hvisited.linked
    label := hlabel
    image := by
      intro κ f fresh hfresh
      rw [hvisited.image f fresh hfresh, Residue.map, hgone]
      exact congrArg _ hvisited.events.symm }

namespace Passed

variable {phase : Phase} {before after : Arena} {term result : Term Id} {events : List Event}

/-- A container stays what it is, with the data it carries. -/
theorem heading (hpassed : Passed phase before term events after result) {heading : Heading}
    {items : List (Term Id)} (hform : term.form = .group heading items)
    (hcontainer : term.kind.isContainer = true) :
    ∃ items, result.form = .group heading items := by
  have himage := hpassed.image (fun _ => ()) () fun _ _ => rfl
  rw [Term.visit_of_container _ _ (by rwa [Term.kind_map])] at himage
  have hresult : (Term.rebuild (term.map fun _ => ()).label
      ((term.map fun _ => ()).form.map (Term.visit phase ()))).form =
        (result.map fun _ => ()).form :=
    congrArg (fun residue => residue.term.form) himage
  rw [Term.rebuild, Term.form_node, Term.form_map, Term.form_map, hform] at hresult
  obtain ⟨items, hform', -⟩ := Form.exists_of_map_eq_group hresult.symm
  exact ⟨items, hform'⟩

end Passed

/-- The arena after passes of the given phases, one after another. -/
def passes (arena : Arena) (root : Id) : List Phase → Arena
  | [] => arena
  | phase :: rest => (arena.pass phase root).2.passes root rest

theorem passes_append (arena : Arena) (root : Id) (first second : List Phase) :
    arena.passes root (first ++ second) = (arena.passes root first).passes root second := by
  induction first generalizing arena with
  | nil => rfl
  | cons phase rest ih => exact ih _

/-- A program, as the term that an arena bears at its root. -/
structure BearsProgram (arena : Arena) (root : Id) (file : String) (shouldExecute : Bool)
    (term : Term Id) : Prop where
  bears : arena.Bears term
  label : term.label = root
  form : ∃ items, term.form = .group (.program file shouldExecute) items

namespace BearsProgram

variable {arena : Arena} {root : Id} {file : String} {shouldExecute : Bool} {term : Term Id}

theorem isContainer (hprogram : arena.BearsProgram root file shouldExecute term) :
    term.kind.isContainer = true := by
  obtain ⟨items, hform⟩ := hprogram.form
  rw [Term.kind, hform]
  rfl

theorem form_eq (hprogram : arena.BearsProgram root file shouldExecute term) :
    ∃ items, arena.form root = .group (.program file shouldExecute) items := by
  obtain ⟨items, hform⟩ := hprogram.form
  refine ⟨items.map Term.label, ?_⟩
  rw [← hprogram.label, hprogram.bears.holds.form_eq, hform]
  rfl

theorem kind_eq (hprogram : arena.BearsProgram root file shouldExecute term) :
    arena.kind root = .group .program := by
  obtain ⟨items, hform⟩ := hprogram.form_eq
  rw [kind, hform]
  rfl

theorem reaches_iff (hprogram : arena.BearsProgram root file shouldExecute term) {id : Id} :
    arena.Reaches root id ↔ id ∈ term.labels := by
  rw [← hprogram.bears.reaches_iff, hprogram.label]

/-- A pass over a program leaves a program, linked below its root. -/
theorem exists_passed (hprogram : arena.BearsProgram root file shouldExecute term) (phase : Phase) :
    ∃ result, Passed phase arena term (arena.pass phase root).1 (arena.pass phase root).2 result ∧
      (arena.pass phase root).2.BearsProgram root file shouldExecute result := by
  obtain ⟨result, hpassed⟩ := Arena.exists_passed hprogram.bears hprogram.isContainer phase
  rw [hprogram.label] at hpassed
  obtain ⟨items, hform⟩ := hprogram.form
  refine ⟨result, hpassed, ?_⟩
  exact {
    bears := hpassed.transition.bears
    label := hpassed.label.trans hprogram.label
    form := hpassed.heading hform hprogram.isContainer }

/-- Any number of passes leave a program with the parent it had. -/
theorem exists_passes (hprogram : arena.BearsProgram root file shouldExecute term)
    (phases : List Phase) :
    ∃ result, (arena.passes root phases).BearsProgram root file shouldExecute result ∧
      ((arena.passes root phases).node root).parent = (arena.node root).parent := by
  induction phases generalizing arena term with
  | nil => exact ⟨term, hprogram, rfl⟩
  | cons phase rest ih =>
      obtain ⟨middle, hpassed, hmiddle⟩ := hprogram.exists_passed phase
      obtain ⟨result, hresult, hparent⟩ := ih hmiddle
      refine ⟨result, hresult, hparent.trans ?_⟩
      have hkept := hpassed.transition.parent
      rwa [hpassed.label, hprogram.label] at hkept

end BearsProgram

theorem IsTree.exists_bearsProgram {arena : Arena} {root : Id} (htree : arena.IsTree root)
    (hprogram : arena.kind root = .group .program) :
    ∃ file shouldExecute term, arena.BearsProgram root file shouldExecute term := by
  obtain ⟨term, rfl, hbears⟩ := htree.exists_bears
  rw [hbears.holds.kind_eq, Term.kind] at hprogram
  cases hform : term.form with
  | group heading items =>
      rw [hform] at hprogram
      cases heading with
      | program file shouldExecute =>
          exact ⟨file, shouldExecute, term, hbears, rfl, items, hform⟩
      | _ => cases hprogram
  | _ =>
      rw [hform] at hprogram
      cases hprogram

/-- A run of a phase makes the passes it counts. -/
theorem arena_settle (arena : Arena) (phase : Phase) (root : Id) (limit : Nat) :
    (arena.settle phase root limit).arena =
      arena.passes root (List.replicate (arena.settle phase root limit).passes phase) := by
  induction limit generalizing arena with
  | zero => rfl
  | succ limit ih =>
      simp only [settle]
      split
      next => rfl
      next => exact ih (arena.pass phase root).2

/-- A run that may make a pass makes one. -/
theorem passes_settle_pos (arena : Arena) (phase : Phase) (root : Id) {limit : Nat}
    (hlimit : 0 < limit) : 0 < (arena.settle phase root limit).passes := by
  cases limit with
  | zero => exact hlimit
  | succ limit =>
      simp only [settle]
      split
      next => exact Nat.one_pos
      next => exact Nat.succ_pos _

theorem runPhase_eq_passes (arena : Arena) (config : Config) (phase : Phase) (root : Id)
    (hprogram : arena.kind root = .group .program) :
    ∃ count, (arena.runPhase config phase root).arena =
        arena.passes root (List.replicate count phase) ∧
      (config.maxPasses ≠ some 0 → 0 < count) := by
  refine ⟨(arena.settle phase root (config.maxPasses.getD arena.patience)).passes, ?_, ?_⟩
  · rw [← arena_settle, runPhase, ensureProgram, if_pos hprogram]
    dsimp only
    split <;> rfl
  · intro hlimit
    apply passes_settle_pos
    cases hmax : config.maxPasses with
    | none => exact Nat.succ_pos _
    | some limit =>
        refine Nat.pos_of_ne_zero ?_
        rintro rfl
        exact hlimit hmax

end AstPromotion.Arena
