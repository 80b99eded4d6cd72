import AstPromotion.Proofs.Conservation
import AstPromotion.Proofs.Offence
import AstPromotion.Proofs.Reoptimization

/-! # Nothing is left unread

Whatever a reader finds in a text can be read as a value, so normalization does
not settle before everything is read and no separator is left. Promotion makes
no leaves. Validation then has no reason to report any of these.
-/

namespace AstPromotion

/-- If the payload of a literal or a keyword is still raw, it can be read. -/
def LeafKind.Legible (kind : LeafKind) (value : Value) : Prop :=
  ∀ text, value = .raw text → (∀ mark, kind ≠ .mark mark) →
    ∃ read, Normalization.readValue kind text = some read

/-- A literal or a keyword that has been read, or a mark that is not a separator. -/
structure LeafKind.Done (kind : LeafKind) (value : Value) : Prop where
  read : (∀ mark, kind ≠ .mark mark) → ∀ text, value ≠ .raw text
  kept : ∀ sign ∈ [Punctuation.comma, .semicolon, .leftBracket, .rightBracket],
    kind ≠ .mark (.punctuation sign)

/-- A leaf that can be read and that no rule of normalization matches is done. -/
theorem LeafKind.Legible.done {kind : LeafKind} {value : Value} (hlegible : kind.Legible value)
    (hunread : ∀ text, value = .raw text → Normalization.readValue kind text = none)
    (hkept : Normalization.isSeparator (.leaf kind) = false) : kind.Done value where
  read hkind text hraw := by
    obtain ⟨read, hread⟩ := hlegible text hraw hkind
    rw [hunread text hraw] at hread
    cases hread
  kept sign hsign hkind := by
    subst hkind
    revert hsign hkept
    cases sign <;> decide

/-- Every token that can be written down can be read. -/
theorem Token.Proper.legible {token : Token} (hproper : token.Proper) :
    token.kind.Legible (.raw token.raw) := by
  intro text hraw hmark
  obtain rfl := Value.raw.inj hraw
  cases hkind : token.kind with
  | literal literal =>
      obtain ⟨value, hvalue, -⟩ := Normalization.exists_readValue_of_proper hproper hkind
      exact ⟨value, hvalue⟩
  | keyword => exact ⟨.name token.raw, rfl⟩
  | mark mark => exact absurd hkind (hmark mark)

namespace Arena

variable {arena before : Arena} {root : Id} {file source : String} {term : Term Id}
  {config : Config} {sketch : Sketch} {phase : Phase} {stats : Stats}

/-- A program that was read is legible. -/
theorem BearsSketch.legible (hsketch : before.BearsSketch root file sketch term)
    (hparse : Sketch.parse source = .ok sketch) :
    term.AllLeaves fun _ kind value => kind.Legible value :=
  hsketch.allLeaves_of_parse hparse fun _ hproper => hproper.legible

/-- Once normalization has settled, every leaf is done. -/
theorem Ran.done_of_settled {limit : Nat} {run : Run} {result : Term Id}
    (hran : Ran .normalization limit before root file true term run result)
    (hsettled : run.settled = true) (hsketch : before.BearsSketch root file sketch term)
    (hparse : Sketch.parse source = .ok sketch) :
    result.erase.AllLeaves fun _ kind value => kind.Done value := by
  have hlegible : result.erase.AllLeaves fun _ kind value => kind.Legible value := by
    apply Term.allLeaves_map_iff.mpr
    refine Term.allLeaves_map_iff.mp (hran.allLeaves_of_normalization hsketch.program
      hsketch.shallow (hsketch.legible hparse) ?_)
    intro label kind text value _ hread other hraw
    exact absurd (hraw ▸ hread) Normalization.ne_raw_of_readValue
  have hnormal := hran.settled_erase hsettled
  have hclean := Normalization.clean_of_settled hnormal
  intro inner hinner kind value hform
  refine (hlegible inner hinner kind value hform).done
    (Term.allLeaves_of_settled hnormal inner hinner kind value hform) ?_
  have hseparator := hclean inner hinner
  rwa [Term.IsSeparator, Term.kind, hform, Bool.not_eq_true] at hseparator

/-- Once both phases have settled, every leaf is done. -/
theorem BearsSketch.exists_done (hsketch : before.BearsSketch root file sketch term)
    (hparse : Sketch.parse source = .ok sketch)
    (hnormal : (before.normalized config root).settled = true)
    (hpromoted : (before.promoted config root).settled = true) :
    ∃ result, (before.promoted config root).arena.BearsProgram root file true result ∧
      result.AllLeaves fun _ kind value => kind.Done value := by
  obtain ⟨middle, result, hran, hprogram, hterm, hstays⟩ := hsketch.exists_promoted hpromoted
  refine ⟨result, hprogram, ?_⟩
  have hshallow : middle.erase.Shallow := Term.shallow_map.mpr (hran.shallow hsketch.shallow)
  have hdone := Promotion.allLeaves_promote hshallow (hran.done_of_settled hnormal hsketch hparse)
    hstays
  rw [hterm] at hdone
  exact Term.allLeaves_map_iff.mp hdone

/-- A phase succeeds if and only if its run settles, which only a program's can. -/
theorem settled_of_runPhase_eq_ok (hok : (arena.runPhase config phase root).outcome = .ok stats) :
    arena.kind root = .group .program ∧
      (arena.settle phase root (arena.limit config)).settled = true ∧
        (arena.runPhase config phase root).arena =
          (arena.settle phase root (arena.limit config)).arena := by
  by_cases hkind : arena.kind root = .group .program
  · rw [runPhase, ensureProgram, if_pos hkind] at hok
    cases hsettled : (arena.settle phase root (arena.limit config)).settled with
    | true => exact ⟨hkind, rfl, (runPhase_of_settled config hkind hsettled (Nat.le_refl _)).2⟩
    | false =>
        rw [limit] at hsettled
        simp only [hsettled, Bool.false_eq_true, if_false] at hok
        cases hok
  · rw [runPhase, ensureProgram, if_neg hkind] at hok
    cases hok

/-- Every leaf that is reachable once both phases have settled is done. -/
theorem BearsSketch.done_of_reaches (hsketch : before.BearsSketch root file sketch term)
    (hparse : Sketch.parse source = .ok sketch)
    (hnormal : (before.normalized config root).settled = true)
    (hpromoted : (before.promoted config root).settled = true) {id : Id} {kind : LeafKind}
    {value : Value} (hreaches : (before.promoted config root).arena.Reaches root id)
    (hform : (before.promoted config root).arena.form id = .leaf kind value) : kind.Done value := by
  obtain ⟨result, hprogram, hdone⟩ := hsketch.exists_done hparse hnormal hpromoted
  obtain ⟨inner, hinner, rfl⟩ := List.mem_map.mp (hprogram.reaches_iff.mp hreaches)
  rw [hprogram.bears.holds inner hinner, Form.map_eq_leaf_iff] at hform
  exact hdone inner hinner kind value hform

/-- A leaf that is done does not offend for being raw or a separator. -/
theorem BearsSketch.leftover_of_validate (hsketch : before.BearsSketch root file sketch term)
    (hparse : Sketch.parse source = .ok sketch)
    (hnormal : (before.normalized config root).settled = true)
    (hpromoted : (before.promoted config root).settled = true) {leftover : Leftover}
    (hinvalid : (before.promoted config root).arena.validate root = .error (.unreduced leftover)) :
    leftover.reason ≠ .rawLiteral ∧
      ∀ sign ∈ [Punctuation.comma, .semicolon, .leftBracket, .rightBracket],
        leftover.kind ≠ .leaf (.mark (.punctuation sign)) := by
  obtain ⟨result, hprogram, -⟩ := hsketch.exists_done hparse hnormal hpromoted
  rw [hprogram.validate_iff, Term.erase, Term.outline_map] at hinvalid
  obtain ⟨id, earlier, later, -, hkind, hoffends, hpreorder, -⟩ :=
    hprogram.bears.reportsFirst hinvalid
  rw [hprogram.label] at hoffends
  have hreaches : (before.promoted config root).arena.Reaches root id := by
    rw [hprogram.reaches_iff, ← hprogram.bears.preorder_tree, hpreorder]
    exact List.mem_append_right _ List.mem_cons_self
  have hdone {kind : LeafKind} {value : Value} :
      (before.promoted config root).arena.form id = .leaf kind value → kind.Done value :=
    hsketch.done_of_reaches hparse hnormal hpromoted hreaches
  constructor
  · intro hreason
    obtain ⟨hrole, text, hraw⟩ := (hoffends .rawLiteral).mpr hreason.symm
    rw [Arena.kind] at hrole
    cases hform : (before.promoted config root).arena.form id with
    | leaf kind value =>
        rw [hform] at hrole hraw
        refine (hdone hform).read ?_ text (Option.some.inj hraw)
        rintro mark rfl
        cases mark <;> cases hrole
    | _ =>
        rw [hform] at hraw
        cases hraw
  · intro sign hsign hseparator
    obtain ⟨value, hform⟩ := Form.exists_of_kind_leaf (hkind.trans hseparator)
    exact (hdone hform).kept sign hsign rfl

end Arena

/-- Whatever the text and the configuration, no literal is refused for not having been read, and no
comma, semicolon or square bracket is refused at all. When both phases settle, every literal and
keyword that can be reached has been read, and none of these marks can be reached. -/
theorem nothing_unread (file source : String) (config : Config) :
    (∀ file' leftover,
      (optimizeSource file source config).1 = .error (.refused file' (.unreduced leftover)) →
        leftover.reason ≠ .rawLiteral ∧
          ∀ sign ∈ [Punctuation.comma, .semicolon, .leftBracket, .rightBracket],
            leftover.kind ≠ .leaf (.mark (.punctuation sign))) ∧
    ∀ root before, parseSource file source = .ok (root, before) →
      ∀ first second, (before.runPhase config .normalization root).outcome = .ok first →
        ((before.runPhase config .normalization root).arena.runPhase config .promotion root).outcome =
          .ok second →
        ∀ id kind value, (before.optimize root config).arena.Reaches root id →
          (before.optimize root config).arena.form id = .leaf kind value →
            ((kind = .keyword ∨ ∃ literal, kind = .literal literal) → ∀ text, value ≠ .raw text) ∧
              ∀ sign ∈ [Punctuation.comma, .semicolon, .leftBracket, .rightBracket],
                kind ≠ .mark (.punctuation sign) := by
  constructor
  · intro file' leftover hrefused
    obtain ⟨root, before, hparse, hrejected⟩ := Arena.exists_of_refused hrefused
    obtain ⟨sketch, term, hsource, hsketch⟩ :=
      Arena.exists_bearsSketch hparse (Arena.kind_of_optimize_eq_unreduced hrejected)
    obtain ⟨hnormal, hpromoted, hinvalid⟩ := hsketch.program.of_optimize_eq_unreduced hrejected
    exact hsketch.leftover_of_validate hsource hnormal hpromoted hinvalid
  · intro root before hparse first second hfirst hsecond id kind value hreaches hform
    obtain ⟨hprogram, hnormal, hmiddle⟩ := Arena.settled_of_runPhase_eq_ok hfirst
    rw [hmiddle] at hsecond
    obtain ⟨hprogram', hpromoted, -⟩ := Arena.settled_of_runPhase_eq_ok hsecond
    obtain ⟨sketch, term, hsource, hsketch⟩ := Arena.exists_bearsSketch hparse hprogram
    rw [(Arena.optimize_of_settled hprogram hnormal hprogram' hpromoted).1] at hreaches hform
    have hdone := hsketch.done_of_reaches hsource hnormal hpromoted hreaches hform
    refine ⟨fun hkind => hdone.read ?_, hdone.kept⟩
    rintro mark rfl
    obtain hkeyword | ⟨literal, hliteral⟩ := hkind
    · cases hkeyword
    · cases hliteral

/-- A numeral in two wrappers, which is lifted before it is read. -/
def parenthesizedNumeral : String :=
  "(Program (Expression '(' (Expression 12) ')'))"

theorem nothing_unread_parenthesizedNumeral :
    ∃ root before, parseSource "main" parenthesizedNumeral = .ok (root, before) ∧
      ∃ first second, (before.runPhase {} .normalization root).outcome = .ok first ∧
        ((before.runPhase {} .normalization root).arena.runPhase {} .promotion root).outcome =
          .ok second ∧
        ∃ id, (before.optimize root {}).arena.Reaches root id ∧
          (before.optimize root {}).arena.kind id = .leaf (.literal .numeric) ∧
            ∀ text, (before.optimize root {}).arena.form id ≠
              .leaf (.literal .numeric) (.raw text) := by
  obtain ⟨root, before, hparse, hfirst, hsecond, id, hchild, hkind⟩ :
      ∃ root before, parseSource "main" parenthesizedNumeral = .ok (root, before) ∧
        (before.runPhase {} .normalization root).outcome.isOk = true ∧
        ((before.runPhase {} .normalization root).arena.runPhase {} .promotion root).outcome.isOk =
          true ∧
        ∃ id ∈ (before.optimize root {}).arena.children root,
          (before.optimize root {}).arena.kind id = .leaf (.literal .numeric) :=
    exists_of_any_parseSource (by decide +kernel)
  obtain ⟨first, hfirst⟩ := exists_of_isOk hfirst
  obtain ⟨second, hsecond⟩ := exists_of_isOk hsecond
  have hreaches : (before.optimize root {}).arena.Reaches root id := .child .root hchild
  refine ⟨root, before, hparse, first, second, hfirst, hsecond, id, hreaches, hkind, ?_⟩
  intro text hform
  exact ((nothing_unread "main" parenthesizedNumeral {}).2 root before hparse first second hfirst hsecond
    id _ _ hreaches hform).1 (.inr ⟨.numeric, rfl⟩) text rfl

end AstPromotion
