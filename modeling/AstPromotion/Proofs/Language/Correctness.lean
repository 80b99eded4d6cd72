import AstPromotion.Proofs.Language.Acceptance
import AstPromotion.Proofs.Language.Phrases
import AstPromotion.Proofs.Sketch.RoundTrip

/-! # Programs of the surface language

A program can be written down, and whatever text it is read from, it becomes the
tree that it means, which validation accepts. Both phases settle if they are let,
so the only thing that a program can be refused for is a limit on passes.
-/

namespace AstPromotion

open Term (node)

/-- The tree below a node without its ids. -/
def Arena.ast (arena : Arena) (root : Id) : Term Unit :=
  (arena.unfoldTerm arena.size root).erase

theorem Arena.Bears.ast_eq {arena : Arena} {term : Term Id} (hbears : arena.Bears term) :
    arena.ast term.label = term.erase := by
  rw [Arena.ast, Arena.unfoldTerm_eq hbears.holds hbears.length_le]

namespace Language.Program

variable {file : String} {program : Program} {arena : Arena} {root : Id} {term : Term Id}
  {config : Config}

theorem exists_row (file : String) (program : Program) :
    ∃ plains, Row file [program.sketch] [list (.program file true) plains] [program.ast file] := by
  obtain ⟨plains, hbody⟩ := exists_row_body file program.body
  exact ⟨plains, hbody.container .program rfl⟩

/-- Reading what was written gives the program back. -/
theorem parse_render_sketch (program : Program) :
    Sketch.parse program.sketch.render = .ok program.sketch := by
  obtain ⟨plains, hrow⟩ := program.exists_row ""
  refine Sketch.parse_render ?_
  have hproper := hrow.proper
  rwa [Sketch.tokensEach, Sketch.tokensEach, List.append_nil] at hproper

/-- Where both phases settle, what is left of a program is its tree. -/
theorem exists_promoted (hsketch : arena.BearsSketch root file program.sketch term)
    (hnormal : (arena.normalized config root).settled = true)
    (hpromoted : (arena.promoted config root).settled = true) :
    ∃ result : Term Id, result.label = root ∧ (arena.promoted config root).arena.Bears result ∧
      result.erase = program.ast file := by
  obtain ⟨plains, hrow⟩ := program.exists_row file
  obtain ⟨middle, result, hran, hresult, hterm, hstays⟩ := hsketch.exists_promoted hpromoted
  refine ⟨result, hresult.label, hresult.bears, ?_⟩
  have hplain : middle.erase = list (.program file true) plains := by
    have himage := hran.image (fun _ => ()) () fun _ _ => rfl
    rw [← Term.erase, hsketch.erase_eq] at himage
    have hsettled := congrArg Prod.fst himage
    refine (congrArg Prod.snd himage).symm.trans ?_
    exact Normalization.Drafts.settle_eq hrow.drafts rfl
      (hrow.settled _ List.mem_cons_self) (hsettled.trans hnormal)
  rw [hplain] at hterm hstays
  have hasts := hrow.promoted
  rw [List.map_singleton, Term.remaining_cons, hstays, if_neg Bool.false_ne_true, hterm] at hasts
  exact (List.cons.inj hasts).1

/-- Validation has nothing against what is left. -/
theorem optimize_of_settled (hsketch : arena.BearsSketch root file program.sketch term)
    (hnormal : (arena.normalized config root).settled = true)
    (hpromoted : (arena.promoted config root).settled = true) :
    ∃ report, (arena.optimize root config).outcome = .ok report ∧
      (arena.optimize root config).arena.IsTree root ∧
        (arena.optimize root config).arena.ast root = program.ast file := by
  obtain ⟨result, rfl, hbears, herase⟩ := exists_promoted hsketch hnormal hpromoted
  obtain ⟨harena, houtcome⟩ := Arena.optimize_of_settled hsketch.program.kind_eq hnormal
    (hsketch.program.kind_normalized config) hpromoted
  have haccepted := program.accepted file
  rw [← herase] at haccepted
  have hroot : result.form.reason? none = none := by
    have herased := haccepted.root none
    rwa [Term.erase, Term.form_map, Form.reason?_map] at herased
  have hvalid := Arena.validate_eq_ok hbears.holds (Term.fits_map.mp haccepted.fits) hroot
  refine ⟨{
    normalization := (arena.normalized config result.label).stats
    promotion := (arena.promoted config result.label).stats }, ?_, ?_, ?_⟩
  · rw [houtcome, hvalid]
    cases config.validate <;> rfl
  · rw [harena]
    exact hbears.isTree
  · rw [harena, hbears.ast_eq, herase]

/-- Without a limit both phases settle, and with one there is no other way to fail. -/
theorem optimize_planted (config : Config) (hsketch : arena.BearsSketch root file program.sketch term) :
    (∃ report, (arena.optimize root config).outcome = .ok report ∧
      (arena.optimize root config).arena.IsTree root ∧
        (arena.optimize root config).arena.ast root = program.ast file) ∨
      ∃ limit phase passes, config.maxPasses = some limit ∧
        (arena.optimize root config).outcome = .error (.passLimit phase passes) := by
  have hkind := hsketch.program.kind_eq
  have hkind' := hsketch.program.kind_normalized config
  cases hlimit : config.maxPasses with
  | none =>
      obtain ⟨hnormal, hpromoted⟩ := hsketch.program.settled_of_unlimited hsketch.shallow hlimit
      exact Or.inl (optimize_of_settled hsketch hnormal hpromoted)
  | some limit =>
      have hexhausted (phase : Phase) (passes : Nat) :
          Arena.exhausted config phase passes = .passLimit phase passes := by
        rw [Arena.exhausted, hlimit]
      cases hnormal : (arena.normalized config root).settled with
      | false =>
          obtain ⟨-, houtcome⟩ := Arena.optimize_of_unsettled hkind hnormal
          rw [hexhausted] at houtcome
          exact Or.inr ⟨limit, _, _, rfl, houtcome⟩
      | true =>
          cases hpromoted : (arena.promoted config root).settled with
          | false =>
              obtain ⟨-, houtcome⟩ := Arena.optimize_of_unpromoted hkind hnormal hkind' hpromoted
              rw [hexhausted] at houtcome
              exact Or.inr ⟨limit, _, _, rfl, houtcome⟩
          | true => exact Or.inl (optimize_of_settled hsketch hnormal hpromoted)

theorem kind_planted (file : String) (program : Program) :
    (program.sketch.plant file {}).2.kind (program.sketch.plant file {}).1 = .group .program :=
  Arena.kind_plant file .program _

/-- A program can be written down. From every text that reads as its sketch it becomes the tree that
it means, unless there is a limit on passes and it is too low. -/
theorem compiles_to_ast (file : String) (program : Program) :
    Sketch.parse program.sketch.render = .ok program.sketch ∧
      ∀ source config, Sketch.parse source = .ok program.sketch →
        (∃ optimized, (optimizeSource file source config).1 = .ok optimized ∧
          optimized.arena.IsTree optimized.root ∧
            optimized.arena.ast optimized.root = program.ast file) ∨
          ∃ limit phase passes, config.maxPasses = some limit ∧
            (optimizeSource file source config).1 =
              .error (.refused file (.passLimit phase passes)) := by
  refine ⟨program.parse_render_sketch, ?_⟩
  intro source config hparse
  have hkind := program.kind_planted file
  rcases hplant : program.sketch.plant file {} with ⟨root, arena⟩
  rw [hplant] at hkind
  have hplanted : parseSource file source = .ok (root, arena) := by
    rw [parseSource, hparse]
    exact congrArg Except.ok hplant
  obtain ⟨sketch, term, hsource, hsketch⟩ := Arena.exists_bearsSketch hplanted hkind
  obtain rfl : program.sketch = sketch := Except.ok.inj (hparse.symm.trans hsource)
  rw [optimizeSource, hplanted]
  rcases optimize_planted config hsketch with
    ⟨report, houtcome, htree, hast⟩ | ⟨limit, phase, passes, hlimit, houtcome⟩
  · refine Or.inl ⟨{ arena := (arena.optimize root config).arena, root, report }, ?_, htree, hast⟩
    simp only [houtcome]
  · refine Or.inr ⟨limit, phase, passes, hlimit, ?_⟩
    simp only [houtcome]

/-- An assignment to a call, which writes at an index. -/
def indexWrite : Program where
  body := [
    .write (.call (.atom (.name ⟨"a", by decide, by decide⟩)) [.atom (.boolean true)])
      (.atom (.name ⟨"b", by decide, by decide⟩))]

theorem compiles_to_ast_indexWrite :
    ∃ optimized,
      (optimizeSource "main"
        "( Program ( Statement ( Expression a '(' ( ExpressionList true ) ')' ) '=' b ';' ) )").1 =
          .ok optimized ∧
        optimized.arena.ast optimized.root =
          list (.program "main" true)
            [node () (.arrayIndexWrite (leaf (.literal .identifier) (.name "a"))
              (list .expressionList [leaf (.literal .boolean) (.boolean true)])
              (leaf (.literal .identifier) (.name "b")))] := by
  have hrender : indexWrite.sketch.render =
      "( Program ( Statement ( Expression a '(' ( ExpressionList true ) ')' ) '=' b ';' ) )" := by
    decide +kernel
  obtain ⟨hparse, hcompiles⟩ := compiles_to_ast "main" indexWrite
  rw [hrender] at hparse
  rcases hcompiles _ {} hparse with ⟨optimized, hok, -, hast⟩ | ⟨_, _, _, hlimit, -⟩
  · exact ⟨optimized, hok, hast⟩
  · cases hlimit

end Language.Program

end AstPromotion
