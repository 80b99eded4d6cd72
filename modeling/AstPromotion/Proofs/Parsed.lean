import AstPromotion.Compilation
import AstPromotion.Proofs.Normalization.Settling
import AstPromotion.Proofs.Planting
import AstPromotion.Proofs.Promotion.Invariant
import AstPromotion.Proofs.Running

/-! # Programs that were read

What is read from a text is shallow. Both phases keep the root, the first keeps
the program shallow, and of the second only one visit counts.
-/

namespace AstPromotion

namespace Sketch

theorem shallow_toTerm (file : String) (sketch : Sketch) : (sketch.toTerm file).Shallow := by
  induction sketch using induction with
  | leaf token => exact Term.shallow_of_leaf rfl
  | group kind items ih =>
      rw [toTerm_group]
      refine Term.shallow_of_group rfl ?_
      intro term hterm
      obtain ⟨item, hitem, rfl⟩ := List.mem_map.mp hterm
      exact ih item hitem

end Sketch

theorem exists_of_parseSource {file source : String} {root : Id} {arena : Arena}
    (hparse : parseSource file source = .ok (root, arena)) :
    ∃ sketch, Sketch.parse source = .ok sketch ∧ sketch.plant file {} = (root, arena) := by
  rw [parseSource] at hparse
  split at hparse
  next sketch hsketch => exact ⟨sketch, hsketch, Except.ok.inj hparse⟩
  next => cases hparse

theorem exists_of_isOk {ε α : Type} {result : Except ε α} (hok : result.isOk = true) :
    ∃ value, result = .ok value := by
  cases result with
  | error cause => cases hok
  | ok value => exact ⟨value, rfl⟩

/-- A success, with a property of its value that can be decided. -/
theorem exists_of_any_toOption {ε α : Type} {result : Except ε α} {property : α → Prop}
    [DecidablePred property]
    (hany : (result.toOption.any fun value => decide (property value)) = true) :
    ∃ value, result = .ok value ∧ property value := by
  cases result with
  | error cause => cases hany
  | ok value => exact ⟨value, rfl, of_decide_eq_true hany⟩

/-- A text that can be read, with a property of the arena that can be decided. -/
theorem exists_of_any_parseSource {file source : String} {property : Id → Arena → Prop}
    [∀ root arena, Decidable (property root arena)]
    (hany : ((parseSource file source).toOption.any fun (root, arena) =>
      decide (property root arena)) = true) :
    ∃ root arena, parseSource file source = .ok (root, arena) ∧ property root arena := by
  obtain ⟨⟨root, arena⟩, hparse, hproperty⟩ : ∃ program,
      parseSource file source = .ok program ∧ property program.1 program.2 :=
    exists_of_any_toOption hany
  exact ⟨root, arena, hparse, hproperty⟩

namespace Arena

/-- A program as it was read: the arena bears its sketch. -/
structure BearsSketch (arena : Arena) (root : Id) (file : String) (sketch : Sketch)
    (term : Term Id) : Prop where
  program : arena.BearsProgram root file true term
  shallow : term.Shallow
  erase_eq : term.erase = sketch.toTerm file

/-- A group is planted as a group of its kind. -/
theorem kind_plant (file : String) (kind : GroupKind) (items : List Sketch) :
    ((Sketch.group kind items).plant file {}).2.kind ((Sketch.group kind items).plant file {}).1 =
      .group kind := by
  obtain ⟨term, hlabel, herase, hplanted⟩ := (Sketch.group kind items).exists_planted file {}
  rw [← hlabel, (hplanted.bears term List.mem_cons_self).holds.kind_eq,
    ← Term.kind_map fun _ => (), ← Term.erase, herase, Sketch.toTerm_group]
  cases kind <;> rfl

theorem exists_bearsSketch_of_plant {file : String} {sketch : Sketch} {root : Id} {arena : Arena}
    (hplant : sketch.plant file {} = (root, arena)) (hkind : arena.kind root = .group .program) :
    ∃ term, arena.BearsSketch root file sketch term := by
  obtain ⟨term, hlabel, herase, hplanted⟩ := sketch.exists_planted file {}
  rw [hplant] at hlabel hplanted
  have hbears := hplanted.bears term List.mem_cons_self
  refine ⟨term, ?_, ?_, herase⟩
  · refine ⟨hbears, hlabel, ?_⟩
    have hterm : term.kind = .group .program := by
      rw [← hbears.holds.kind_eq, hlabel]
      exact hkind
    cases sketch with
    | leaf token =>
        rw [← Term.kind_map (fun _ => ()), ← Term.erase, herase] at hterm
        cases hterm
    | group kind items =>
        rw [Sketch.toTerm_group] at herase
        have hform := congrArg Term.form herase
        rw [Term.erase, Term.form_map, Term.form_node] at hform
        obtain ⟨items, hitems, -⟩ := Form.exists_of_map_eq_group hform
        rw [Term.kind, hitems] at hterm
        cases kind with
        | program => exact ⟨items, hitems⟩
        | _ => cases hterm
  · rw [← Term.shallow_map (f := fun _ => ()), ← Term.erase, herase]
    exact sketch.shallow_toTerm file

theorem exists_bearsSketch {file source : String} {root : Id} {arena : Arena}
    (hparse : parseSource file source = .ok (root, arena))
    (hkind : arena.kind root = .group .program) :
    ∃ sketch term, Sketch.parse source = .ok sketch ∧ arena.BearsSketch root file sketch term := by
  obtain ⟨sketch, hsketch, hplant⟩ := exists_of_parseSource hparse
  obtain ⟨term, hbears⟩ := exists_bearsSketch_of_plant hplant hkind
  exact ⟨sketch, term, hsketch, hbears⟩

/-- A text that was optimized could be read, and its sketch was optimized. -/
theorem exists_of_optimizeSource {file source : String} {config : Config} {program : Optimized}
    (hok : (optimizeSource file source config).1 = .ok program) :
    ∃ before sketch term, parseSource file source = .ok (program.root, before) ∧
      before.BearsSketch program.root file sketch term ∧
        (before.optimize program.root config).outcome = .ok program.report ∧
          (before.optimize program.root config).arena = program.arena := by
  rw [optimizeSource] at hok
  split at hok
  next => cases hok
  next root before hparse =>
      dsimp only at hok
      split at hok
      next report hreport =>
          obtain rfl := Except.ok.inj hok
          obtain ⟨sketch, term, -, hsketch⟩ :=
            exists_bearsSketch hparse (kind_of_optimize_eq_ok hreport)
          exact ⟨before, sketch, term, hparse, hsketch, hreport, rfl⟩
      next => cases hok

/-- A text that was refused could be read, and its program was refused. -/
theorem exists_of_refused {file file' source : String} {config : Config} {cause : Failure}
    (hrefused : (optimizeSource file source config).1 = .error (.refused file' cause)) :
    ∃ root before, parseSource file source = .ok (root, before) ∧
      (before.optimize root config).outcome = .error cause := by
  rw [optimizeSource] at hrefused
  split at hrefused
  next malformed hparse =>
      obtain rfl := Except.error.inj hrefused
      rw [parseSource] at hparse
      split at hparse
      next => cases hparse
      next => cases hparse
  next root before hparse =>
      dsimp only at hrefused
      split at hrefused
      next => cases hrefused
      next rejected hrejected =>
          cases hrefused
          exact ⟨root, before, hparse, hrejected⟩

/-! ## Both phases on a shallow program -/

variable {before : Arena} {root : Id} {file : String} {shouldExecute : Bool}
  {term result : Term Id} {run : Run} {limit : Nat}

/-- Normalization keeps a program shallow. -/
theorem Ran.shallow
    (hran : Ran .normalization limit before root file shouldExecute term run result)
    (hshallow : term.Shallow) : result.Shallow :=
  Term.shallow_map.mp <| hran.keeps Term.Shallow (fun _ => Normalization.shallow_normalize ())
    (Term.shallow_map.mpr hshallow)

/-- Of the visits that promotion makes to a shallow program, the first one counts. -/
theorem Ran.promoted
    (hran : Ran .promotion (limit + 1) before root file shouldExecute term run result)
    (hshallow : term.Shallow) (hkind : term.kind.isContainer = true) {κ : Type} (f : Id → κ)
    (fresh : κ) (hfresh : ∀ id, before.size ≤ id → f id = fresh) :
    ((term.map f).promote fresh).term = result.map f ∧
      ((term.map f).promote fresh).gone = false := by
  have hkind' : (term.map f).kind.isContainer = true := by rwa [Term.kind_map]
  constructor
  · rw [← (Promotion.settle_of_shallow (Term.shallow_map.mpr hshallow) hkind' fresh limit).1,
      hran.image f fresh hfresh]
  · exact congrArg Residue.gone (Term.visit_of_container .promotion fresh hkind')

/-- A run of promotion that settled has made a visit. -/
theorem Ran.exists_limit_of_settled
    (hran : Ran .promotion limit before root file shouldExecute term run result)
    (hsettled : run.settled = true) : ∃ earlier, limit = earlier + 1 := by
  cases limit with
  | zero =>
      have himage := hran.image (fun _ => ()) () fun _ _ => rfl
      rw [Term.settle] at himage
      have hnever := congrArg Prod.fst himage
      rw [hsettled] at hnever
      cases hnever
  | succ earlier => exact ⟨earlier, rfl⟩

/-- What is left of a program that was read, once promotion has settled, is what one visit makes of
what normalization left. -/
theorem BearsSketch.exists_promoted {sketch : Sketch} {config : Config}
    (hsketch : before.BearsSketch root file sketch term)
    (hpromoted : (before.promoted config root).settled = true) :
    ∃ middle result, Ran .normalization (before.limit config) before root file true term
        (before.normalized config root) middle ∧
      (before.promoted config root).arena.BearsProgram root file true result ∧
        (middle.erase.promote ()).term = result.erase ∧ (middle.erase.promote ()).gone = false := by
  obtain ⟨middle, hran⟩ := hsketch.program.exists_ran .normalization (before.limit config)
  obtain ⟨result, hran'⟩ := hran.program.exists_ran .promotion
    ((before.normalized config root).arena.limit config)
  have hprogram : (before.promoted config root).arena.BearsProgram root file true result :=
    hran'.program
  obtain ⟨earlier, hlimit⟩ := hran'.exists_limit_of_settled hpromoted
  rw [hlimit] at hran'
  have hvisit := hran'.promoted (hran.shallow hsketch.shallow) hran.program.isContainer
    (fun _ => ()) () fun _ _ => rfl
  exact ⟨middle, result, hran, hprogram, hvisit⟩

/-- Two visits are enough for promotion. -/
theorem Ran.settled_of_two_le
    (hran : Ran .promotion (limit + 2) before root file shouldExecute term run result)
    (hshallow : term.Shallow) (hkind : term.kind.isContainer = true) : run.settled = true := by
  have himage := hran.image (fun _ => ()) () fun _ _ => rfl
  have hkind' : (term.map fun _ => ()).kind.isContainer = true := by rwa [Term.kind_map]
  have hsettled :=
    (Promotion.settle_of_shallow (Term.shallow_map.mpr hshallow) hkind' () limit).2
  rwa [himage] at hsettled

/-- Without a limit, both phases settle. -/
theorem BearsProgram.settled_of_unlimited
    (hprogram : before.BearsProgram root file shouldExecute term) (hshallow : term.Shallow)
    {config : Config} (hlimit : config.maxPasses = none) :
    (before.normalized config root).settled = true ∧
      (before.promoted config root).settled = true := by
  have hpatience (arena : Arena) : arena.limit config = arena.size + 4 := by
    rw [Arena.limit, hlimit]
    rfl
  obtain ⟨normal, hnormal⟩ := hprogram.exists_ran .normalization (before.limit config)
  obtain ⟨result, hpromoted⟩ :=
    hnormal.program.exists_ran .promotion ((before.normalized config root).arena.limit config)
  constructor
  · have himage := congrArg Prod.fst (hnormal.image (fun _ => ()) () fun _ _ => rfl)
    refine himage.symm.trans ?_
    apply Normalization.settle_of_shallow (Term.shallow_map.mpr hshallow)
    · rw [Term.kind_map]
      exact hprogram.isContainer
    · have hwrappers := (term.map fun _ => ()).wrappers_le
      rw [Term.labels_map, List.length_map] at hwrappers
      have hlength := hprogram.bears.length_le
      rw [hpatience]
      omega
  · rw [hpatience] at hpromoted
    have hsettled := hpromoted.settled_of_two_le (hnormal.shallow hshallow) hnormal.program.isContainer
    rw [Arena.promoted, hpatience]
    exact hsettled

end Arena

end AstPromotion
