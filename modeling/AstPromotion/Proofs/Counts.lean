import AstPromotion.Proofs.Accounting
import AstPromotion.Proofs.Due
import AstPromotion.Proofs.Unread

/-! # Reported rewrites are exact

What the phases report to have rewritten is what can be counted in the tree: the
leaves that were to be read or stripped, the wrappers that were lifted and the
groupings that were promoted. The log has one record for each.
-/

namespace AstPromotion

/-! ## A run of a phase -/

/-- From a shallow or a settled term a visit goes to another one, and its rewrites are as many as
the nodes that are due no more. -/
theorem Term.spent_visit {ι : Type} {phase : Phase} {fresh : ι} {term : Term ι}
    (hterm : term.Shallow ∨ term.Settled phase) (hstays : (term.visit phase fresh).gone = false) :
    ((term.visit phase fresh).term.Shallow ∨ (term.visit phase fresh).term.Settled phase) ∧
      (term.visit phase fresh).term.due phase + (term.visit phase fresh).events.length =
        term.due phase := by
  rcases hterm with hshallow | hsettled
  · refine ⟨?_, due_visit hshallow hstays⟩
    cases phase with
    | normalization => exact Or.inl (Normalization.shallow_normalize fresh hshallow)
    | promotion => exact Or.inr (Promotion.settled_promote hshallow hstays)
  · rw [visit_of_settled hsettled]
    exact ⟨Or.inr hsettled, rfl⟩

namespace Arena

variable {arena before : Arena} {root : Id} {file : String} {shouldExecute : Bool} {term : Term Id}
  {phase : Phase} {config : Config} {sketch : Sketch}

/-- How many nodes from the root on are due. -/
def due (arena : Arena) (phase : Phase) (root : Id) : Nat :=
  arena.count root fun id => (arena.form id).isDue phase

/-- How many nodes from the root on are of certain kinds. -/
def countKinds (arena : Arena) (root : Id) (test : Kind → Bool) : Nat :=
  arena.count root fun id => test (arena.kind id)

theorem Bears.countKinds_eq (hbears : arena.Bears term) (test : Kind → Bool) :
    arena.countKinds term.label test = term.subterms.countP fun inner => test inner.kind :=
  hbears.count_eq fun inner hinner => by rw [(hbears.holds.of_mem hinner).kind_eq]

theorem BearsProgram.due_eq (hprogram : arena.BearsProgram root file shouldExecute term)
    (phase : Phase) : arena.due phase root = term.erase.due phase := by
  rw [Term.erase, Term.due_map, ← hprogram.label]
  refine hprogram.bears.count_eq fun inner hinner => ?_
  rw [(hprogram.bears.holds.of_mem hinner).form_eq, Form.isDue_map]

/-- The rewrites of a run are as many as the nodes that are due no more. -/
theorem BearsProgram.due_settle (hprogram : arena.BearsProgram root file shouldExecute term)
    (hterm : term.erase.Shallow ∨ term.erase.Settled phase) (limit : Nat) :
    (arena.settle phase root limit).arena.due phase root +
      (arena.settle phase root limit).events.length = arena.due phase root := by
  induction limit generalizing arena term with
  | zero => rfl
  | succ limit ih =>
      obtain ⟨result, hpassed, hresult⟩ := hprogram.exists_passed phase
      have himage := hpassed.image (fun _ => ()) () fun _ _ => rfl
      rw [← Term.erase, ← Term.erase] at himage
      obtain ⟨hnext, hspent⟩ := Term.spent_visit hterm (congrArg Residue.gone himage)
      rw [himage] at hnext hspent
      dsimp only at hnext hspent
      rw [← hresult.due_eq, ← hprogram.due_eq] at hspent
      simp only [settle]
      split
      next hidle =>
          rw [List.isEmpty_iff.mp hidle] at hspent
          exact hspent
      next =>
          have hrest := ih hresult hnext
          dsimp only
          rw [List.length_append]
          omega

end Arena

/-! ## What is counted -/

/-- The kinds whose leaves are to be read. -/
def Kind.isWord (kind : Kind) : Bool :=
  kind.hasRole .literalValue || kind.hasRole .keyword

/-- The groupings that can wrap a single expression. -/
def Kind.isWrapper (kind : Kind) : Bool :=
  [Promotion.grouping .expression, Promotion.grouping .memberAccess].contains kind

/-- What one test counts, two tests count that tell it apart. -/
theorem countP_eq_add {α : Type} {things : List α} {test first second : α → Bool}
    (htest : ∀ thing ∈ things, (if test thing then 1 else 0) =
      (if first thing then 1 else 0) + if second thing then 1 else 0) :
    things.countP test = things.countP first + things.countP second := by
  have hsum (test : α → Bool) :
      things.countP test = (things.map fun thing => if test thing then 1 else 0).sum := by
    rw [sum_of_test, Nat.mul_one]
  rw [hsum, hsum first, hsum second, ← List.sum_map_add]
  exact congrArg List.sum (List.map_congr_left htest)

namespace Term

variable {ι : Type} {term : Term ι}

/-- In a shallow term wrappers and rough leaves are due. -/
theorem due_normalization (hshallow : term.Shallow) :
    term.due .normalization = term.subterms.countP (fun inner => inner.kind.isWrapper) +
      term.subterms.countP fun inner => inner.form.isRough := by
  refine countP_eq_add fun inner hinner => ?_
  have hinside : inner.Shallow := fun other hother =>
    hshallow other (mem_subterms_trans hinner hother)
  rcases hinside.leaf_or_group with ⟨kind, value, hform⟩ | ⟨heading, items, hform⟩
  · rw [Term.kind, hform]
    rcases kind with _ | _ | (_ | _) <;>
      simp [Form.isDue, Form.hasRole, Form.kind, Kind.hasRole, Kind.isWrapper]
  · rw [Term.kind, hform]
    rcases heading with (_ | _) | _ <;> rfl

/-- As long as nothing has been read, words and separators are rough. -/
theorem countP_isRough (hraw : term.AllLeaves fun _ kind value =>
      kind.Legible value ∧ ∃ text, value = .raw text) :
    (term.subterms.countP fun inner => inner.form.isRough) =
      term.subterms.countP (fun inner => inner.kind.isWord) +
        term.subterms.countP fun inner => Normalization.isSeparator inner.kind := by
  refine countP_eq_add fun inner hinner => ?_
  rw [Term.kind]
  cases hform : inner.form with
  | leaf kind value =>
      obtain ⟨hlegible, text, rfl⟩ := hraw inner hinner kind value hform
      cases kind with
      | mark mark =>
          rcases mark with sign | sign <;> cases sign <;> rfl
      | _ =>
          obtain ⟨read, hread⟩ := hlegible text rfl fun _ hmark => by cases hmark
          simp [Form.isRough, Form.reading?, hread, Form.kind, Kind.isWord, Kind.hasRole,
            Normalization.isSeparator]
  | group heading items => cases heading <;> rfl
  | _ => rfl

/-- Once normalization has settled, no leaf is rough. -/
theorem countP_isRough_of_settled (hsettled : term.Settled .normalization) :
    (term.subterms.countP fun inner => inner.form.isRough) = 0 := by
  rw [List.countP_eq_zero]
  intro inner hinner hrough
  exact Normalization.not_rough_of_plan? (hsettled inner hinner) (isRough_iff.mp hrough)

end Term

namespace Arena

variable {arena before : Arena} {root : Id} {file source : String} {shouldExecute : Bool}
  {term : Term Id} {sketch : Sketch} {config : Config}

/-- In a program that was read, every word, every separator and every wrapper is due. -/
theorem BearsSketch.due_normalization (hsketch : before.BearsSketch root file sketch term)
    (hparse : Sketch.parse source = .ok sketch) :
    before.due .normalization root = before.countKinds root Kind.isWord +
      before.countKinds root Normalization.isSeparator + before.countKinds root Kind.isWrapper := by
  have hbears := hsketch.program.bears
  have hraw : term.AllLeaves fun _ kind value => kind.Legible value ∧ ∃ text, value = .raw text := by
    intro inner hinner kind value hform
    obtain ⟨token, -, -, hvalue⟩ := hsketch.allLeaves inner hinner kind value hform
    exact ⟨hsketch.legible hparse inner hinner kind value hform, token.raw, hvalue⟩
  rw [hsketch.program.due_eq, Term.erase, Term.due_map, Term.due_normalization hsketch.shallow,
    Term.countP_isRough hraw, ← hsketch.program.label, hbears.countKinds_eq, hbears.countKinds_eq,
    hbears.countKinds_eq, Nat.add_comm]

/-- Once normalization has settled, only the wrappers are due. -/
theorem BearsProgram.due_of_settled (hprogram : arena.BearsProgram root file shouldExecute term)
    (hshallow : term.erase.Shallow) (hsettled : term.erase.Settled .normalization) :
    arena.due .normalization root = arena.countKinds root Kind.isWrapper := by
  rw [hprogram.due_eq, Term.due_normalization hshallow, Term.countP_isRough_of_settled hsettled,
    ← hprogram.label, hprogram.bears.countKinds_eq, Term.erase, Term.subterms_map, List.countP_map,
    Nat.add_zero]
  simp only [Function.comp_def, Term.kind_map]

/-- One rewrite is made for each word, for each separator and for each wrapper that is gone. -/
theorem BearsSketch.rewrites_normalized (hsketch : before.BearsSketch root file sketch term)
    (hparse : Sketch.parse source = .ok sketch)
    (hsettled : (before.normalized config root).settled = true) :
    (before.normalized config root).stats.rewrites +
        (before.normalized config root).arena.countKinds root Kind.isWrapper =
      before.countKinds root Kind.isWord + before.countKinds root Normalization.isSeparator +
        before.countKinds root Kind.isWrapper := by
  obtain ⟨result, hran⟩ := hsketch.program.exists_ran .normalization (before.limit config)
  have hshallow : result.erase.Shallow := Term.shallow_map.mpr (hran.shallow hsketch.shallow)
  have hafter := hran.program.due_of_settled hshallow (hran.settled_erase hsettled)
  rw [← hsketch.due_normalization hparse, Nat.add_comm, normalized, ← hafter]
  exact hsketch.program.due_settle (Or.inl (Term.shallow_map.mpr hsketch.shallow)) _

/-- One rewrite is made for each provisional grouping that is gone. -/
theorem BearsSketch.rewrites_promoted (hsketch : before.BearsSketch root file sketch term) :
    (before.promoted config root).stats.rewrites +
        (before.promoted config root).arena.countKinds root Promotion.isProvisional =
      (before.normalized config root).arena.countKinds root Promotion.isProvisional := by
  obtain ⟨middle, hran⟩ := hsketch.program.exists_ran .normalization (before.limit config)
  rw [Nat.add_comm]
  exact hran.program.due_settle (Or.inl (Term.shallow_map.mpr (hran.shallow hsketch.shallow))) _

/-- Validation accepts no provisional grouping. -/
theorem BearsProgram.countKinds_isProvisional
    (hprogram : arena.BearsProgram root file shouldExecute term)
    (hvalid : arena.validate root = .ok ()) :
    arena.countKinds root Promotion.isProvisional = 0 := by
  rw [← hprogram.label] at hvalid ⊢
  obtain ⟨hroot, hfits⟩ := hprogram.bears.fits_of_validate hvalid
  rw [hprogram.bears.countKinds_eq, List.countP_eq_zero]
  intro inner hinner
  rw [Bool.not_eq_true]
  rcases Term.eq_or_held hinner with rfl | ⟨holder, hholder, hheld⟩
  · exact (Form.hasRole_of_accepted hroot).1
  · exact (Form.hasRole_of_accepted (hfits holder hholder inner hheld)).1

end Arena

/-! ## What is reported -/

namespace Record

/-- The phase that a record is about. -/
def phase? : Record → Option Phase
  | started phase | rewrote phase _ | settled phase _ => some phase
  | compiled _ _ => none

/-- Whether a record traces a phase. -/
def traces (phase : Phase) (record : Record) : Bool :=
  record.level == "TRACE" && record.phase? == some phase

theorem countP_traces (phase other : Phase) (events : List Event) :
    (events.map (rewrote phase)).countP (traces other) =
      if phase = other then events.length else 0 := by
  have htraces (event : Event) : traces other (rewrote phase event) = decide (phase = other) := by
    simp [traces, level, phase?, beq_eq_decide]
  rw [List.countP_map]
  split
  next heq =>
      exact List.countP_eq_length.mpr fun event _ => (htraces event).trans (decide_eq_true heq)
  next hne =>
      exact List.countP_eq_zero.mpr fun event _ htraced =>
        hne (of_decide_eq_true ((htraces event).symm.trans htraced))

end Record

namespace Arena

variable {arena before : Arena} {root : Id} {config : Config}

/-- A phase traces its own rewrites only, whether it settles or not. -/
theorem countP_traces_enterPhase (hkind : arena.kind root = .group .program) (phase other : Phase) :
    (arena.enterPhase config phase root).log.countP (Record.traces other) =
      if phase = other then (arena.settle phase root (arena.limit config)).events.length else 0 := by
  rw [enterPhase, runPhase, ensureProgram, if_pos hkind, limit]
  dsimp only
  rw [List.countP_cons_of_neg (by simp [Record.traces, Record.level])]
  split
  · rw [List.countP_append, Record.countP_traces,
      List.countP_cons_of_neg (by simp [Record.traces, Record.level])]
    rfl
  · exact Record.countP_traces phase other _

/-- Once both phases have settled, what each of them records is on record, and no more. -/
theorem log_optimize_of_settled (hkind : before.kind root = .group .program)
    (hnormal : (before.normalized config root).settled = true)
    (hkind' : (before.normalized config root).arena.kind root = .group .program)
    (hpromoted : (before.promoted config root).settled = true) :
    (before.optimize root config).log = (before.enterPhase config .normalization root).log ++
      ((before.normalized config root).arena.enterPhase config .promotion root).log := by
  obtain ⟨hfirst, hmiddle⟩ := enterPhase_of_settled hkind hnormal
  have hsecond := (enterPhase_of_settled hkind' hpromoted).1
  rw [normalized] at hsecond ⊢
  rw [optimize, ensureProgram, if_pos hkind]
  simp only [Attempt.andThen, hfirst, hmiddle, hsecond, List.append_nil]

/-- What the reported rewrites of two phases come to, by what can be counted before normalization,
between the phases and after promotion. -/
structure Counted (before middle after : Arena) (root : Id) (log : List Record)
    (normalization promotion : Stats) : Prop where
  normalized : normalization.rewrites + middle.countKinds root Kind.isWrapper =
    before.countKinds root Kind.isWord + before.countKinds root Normalization.isSeparator +
      before.countKinds root Kind.isWrapper
  promoted : promotion.rewrites + after.countKinds root Promotion.isProvisional =
    middle.countKinds root Promotion.isProvisional
  normalization_traced : log.countP (Record.traces .normalization) = normalization.rewrites
  promotion_traced : log.countP (Record.traces .promotion) = promotion.rewrites

/-- Once both phases of a program that was read have settled, their rewrites are exact. -/
theorem BearsSketch.counted {file source : String} {sketch : Sketch} {term : Term Id}
    (hsketch : before.BearsSketch root file sketch term) (hparse : Sketch.parse source = .ok sketch)
    (hnormal : (before.normalized config root).settled = true)
    (hpromoted : (before.promoted config root).settled = true) :
    Counted before (before.normalized config root).arena (before.promoted config root).arena root
      (before.optimize root config).log (before.normalized config root).stats
      (before.promoted config root).stats := by
  have hkind := hsketch.program.kind_eq
  have hkind' := hsketch.program.kind_normalized config
  have htraces (phase : Phase) := congrArg (List.countP (Record.traces phase))
    (log_optimize_of_settled hkind hnormal hkind' hpromoted)
  simp only [List.countP_append, countP_traces_enterPhase hkind,
    countP_traces_enterPhase hkind'] at htraces
  exact ⟨hsketch.rewrites_normalized hparse hnormal, hsketch.rewrites_promoted,
    htraces .normalization, (htraces .promotion).trans (Nat.zero_add _)⟩

/-- What is reported is what the phases did. -/
theorem BearsProgram.report_eq {file : String} {shouldExecute : Bool} {term : Term Id}
    {report : Report} (hprogram : before.BearsProgram root file shouldExecute term)
    (hok : (before.optimize root config).outcome = .ok report) :
    report = {
      normalization := (before.normalized config root).stats
      promotion := (before.promoted config root).stats } := by
  obtain ⟨hnormal, hpromoted, -, hvalid⟩ := hprogram.of_optimize_eq_ok hok
  rw [(optimize_of_settled hprogram.kind_eq hnormal (hprogram.kind_normalized config) hpromoted).2]
    at hok
  by_cases hvalidate : config.validate = true
  · rw [if_pos hvalidate, hvalid hvalidate] at hok
    exact (Except.ok.inj hok).symm
  · rw [if_neg hvalidate] at hok
    exact (Except.ok.inj hok).symm

/-- If the program is accepted, promotion makes a rewrite for each provisional grouping. -/
theorem BearsSketch.rewrites_of_accepted {file : String} {sketch : Sketch} {term : Term Id}
    {report : Report} (hsketch : before.BearsSketch root file sketch term)
    (hok : (before.optimize root config).outcome = .ok report) (hvalidate : config.validate = true) :
    (before.promoted config root).stats.rewrites =
      (before.normalized config root).arena.countKinds root Promotion.isProvisional := by
  obtain ⟨-, hpromoted, -, hvalid⟩ := hsketch.program.of_optimize_eq_ok hok
  obtain ⟨middle, result, -, hprogram, -⟩ := hsketch.exists_promoted hpromoted
  have hspent : (before.promoted config root).stats.rewrites + _ = _ := hsketch.rewrites_promoted
  rwa [hprogram.countKinds_isProvisional (hvalid hvalidate)] at hspent

end Arena

/-- The reported rewrites are exact. When both phases of a program that was read settle,
normalization reports one rewrite for each literal, keyword and separator of the text and for each
wrapper that it lifts, promotion one for each provisional grouping that is gone, and both leave one
trace for each. If validation accepts the program, no provisional grouping is left. -/
theorem counted_of_parse {file source : String} {root : Id} {before : Arena}
    (hparse : parseSource file source = .ok (root, before)) {config : Config}
    {normalization promotion : Stats}
    (hnormal : (before.runPhase config .normalization root).outcome = .ok normalization)
    (hpromoted : ((before.runPhase config .normalization root).arena.runPhase config .promotion
      root).outcome = .ok promotion) :
    Arena.Counted before (before.runPhase config .normalization root).arena
        (before.optimize root config).arena root (before.optimize root config).log normalization
        promotion ∧
      ∀ report, (before.optimize root config).outcome = .ok report →
        report = { normalization, promotion } ∧
          (config.validate = true → promotion.rewrites =
            (before.runPhase config .normalization root).arena.countKinds root
              Promotion.isProvisional) := by
  obtain ⟨hkind, hsettled, hmiddle⟩ := Arena.settled_of_runPhase_eq_ok hnormal
  have hfirst := (Arena.runPhase_of_settled config hkind hsettled (Nat.le_refl _)).1
  obtain rfl := Except.ok.inj (hnormal.symm.trans hfirst)
  rw [hmiddle] at hpromoted ⊢
  obtain ⟨hkind', hsettled', -⟩ := Arena.settled_of_runPhase_eq_ok hpromoted
  have hsecond := (Arena.runPhase_of_settled config hkind' hsettled' (Nat.le_refl _)).1
  obtain rfl := Except.ok.inj (hpromoted.symm.trans hsecond)
  obtain ⟨sketch, term, hsource, hsketch⟩ := Arena.exists_bearsSketch hparse hkind
  have hafter := (Arena.optimize_of_settled hkind hsettled hkind' hsettled').1
  have hcounted := hsketch.counted hsource hsettled hsettled'
  rw [← hafter] at hcounted
  exact ⟨hcounted, fun report hreport =>
    ⟨hsketch.program.report_eq hreport, hsketch.rewrites_of_accepted hreport⟩⟩

/-- An initialisation whose value has two wrappers. Normalization reads four leaves, strips one and
lifts the outer wrapper; promotion turns the inner one and the statement into constructs. -/
def wrappedSum : String :=
  "(Program (Statement let x '=' (Expression '(' (Expression 1 '+' x) ')') ';'))"

theorem counted_of_parse_wrappedSum :
    ∃ root before, parseSource "main" wrappedSum = .ok (root, before) ∧
      ∃ normalization promotion,
        (before.runPhase {} .normalization root).outcome = .ok normalization ∧
        ((before.runPhase {} .normalization root).arena.runPhase {} .promotion root).outcome =
          .ok promotion ∧
        Arena.Counted before (before.runPhase {} .normalization root).arena
          (before.optimize root {}).arena root (before.optimize root {}).log normalization
          promotion ∧
        normalization.rewrites = 6 ∧ promotion.rewrites = 2 := by
  obtain ⟨root, before, hparse, hfirst, hsecond, hcounts⟩ :
      ∃ root before, parseSource "main" wrappedSum = .ok (root, before) ∧
        (before.runPhase {} .normalization root).outcome.isOk = true ∧
        ((before.runPhase {} .normalization root).arena.runPhase {} .promotion root).outcome.isOk =
          true ∧
        (before.countKinds root Kind.isWord = 4 ∧
          before.countKinds root Normalization.isSeparator = 1 ∧
          before.countKinds root Kind.isWrapper = 2 ∧
          (before.runPhase {} .normalization root).arena.countKinds root Kind.isWrapper = 1) ∧
        (before.runPhase {} .normalization root).arena.countKinds root Promotion.isProvisional = 2 ∧
        (before.optimize root {}).arena.countKinds root Promotion.isProvisional = 0 :=
    exists_of_any_parseSource (by decide +kernel)
  obtain ⟨normalization, hfirst⟩ := exists_of_isOk hfirst
  obtain ⟨promotion, hsecond⟩ := exists_of_isOk hsecond
  have hcounted := (counted_of_parse hparse hfirst hsecond).1
  have hnormal := hcounted.normalized
  have hpromoted := hcounted.promoted
  refine ⟨root, before, hparse, normalization, promotion, hfirst, hsecond, hcounted, ?_, ?_⟩ <;> omega

end AstPromotion
