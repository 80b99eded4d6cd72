import AstPromotion.Proofs.Normalization.Termination
import AstPromotion.Proofs.Promotion.Exposure
import AstPromotion.Proofs.Promotion.Termination

/-! # Optimizing again what was rejected

The phases run once each, so a program that was rejected may come out otherwise
when it is optimized again: what promotion unwrapped, the next normalization may
lift. The same node is reported again if normalization has nothing to do from
that node on, and it never has if every grouping that stands directly in an
expression is an expression itself.
-/

namespace AstPromotion

variable {ι : Type} {fresh : ι} {term : Term ι}

/-! ## Both phases settle again -/

theorem Normalization.clean_of_settled (hsettled : term.Settled .normalization) : term.Clean :=
  fun inner hinner hseparator => plan?_ne_none_of_step (.strip hseparator) (hsettled inner hinner)

namespace Promotion

open Term (node relist)

/-- Promotion makes no separators. -/
theorem inductive_clean (fresh : ι) : Inductive fresh fun term : Term ι => ¬ term.IsSeparator where
  group _ heading _ _ _ := by cases heading <;> exact Bool.false_ne_true
  body _ _ _ _ _ := Bool.false_ne_true
  build subject form relisted hstep _ := by
    obtain ⟨built, hbuilt⟩ := exists_kind_of_step hstep
    rw [Term.IsSeparator, Term.kind_node, kind_relist (fields_of_step hstep), hbuilt]
    exact Bool.false_ne_true

theorem clean_promote (hshallow : term.Shallow) (hclean : term.Clean)
    (hstays : (term.promote fresh).gone = false) : (term.promote fresh).term.Clean :=
  (inductive_clean fresh).promote hshallow (fun inner hinner _ _ _ => hclean inner hinner) hstays

/-- A void statement is never settled: there is an empty one in it. -/
theorem not_void_of_settled (hsettled : term.Settled .promotion) : ¬ term.Void := by
  intro hvoid
  have hgone : (term.promote term.label).gone = true := gone_promote_iff.mpr hvoid
  rw [Term.promote_of_settled hsettled] at hgone
  cases hgone

end Promotion

namespace Normalization

/-- Normalization makes no void statements. -/
theorem void_of_normalize (hclean : term.Clean) (hvoid : (term.normalize fresh).term.Void) :
    term.Void := by
  induction term using Term.induction with
  | step term ih =>
      have hkind := kind_of_kind_normalize hvoid.kind_eq rfl
      refine .intro hkind fun child hchild => ih child hchild (hclean.of_mem_children hchild) ?_
      refine hvoid.of_mem_children ?_
      cases offered fresh term with
      | unmatched hplan hoffer =>
          rw [Term.normalize_of_stays (by rw [hoffer]), hoffer,
            children_rebuild_of_clean term.label fresh hclean]
          exact List.mem_map_of_mem hchild
      | read hform hread hterm hgone hevents =>
          rw [Term.kind, hform] at hkind
          cases hkind
      | lifted hsubject hoperand hchildren hterm hgone hevents =>
          rw [Form.hasRole, ← Term.kind, hkind] at hsubject
          cases hsubject
      | stripped hsubject hoffer => exact absurd hsubject (Term.clean_iff.mp hclean).1

end Normalization

/-- No separator and no void statement is left anywhere in the term. -/
def Term.Tidy (term : Term ι) : Prop :=
  term.Clean ∧ ∀ inner ∈ term.subterms, ¬ inner.Void

theorem Normalization.tidy_normalize (fresh : ι) (htidy : term.Tidy) :
    (term.normalize fresh).term.Tidy := by
  refine ⟨clean_normalize_of_clean fresh htidy.1, fun inner hinner hvoid => ?_⟩
  obtain ⟨origin, horigin, rfl⟩ := exists_of_mem_subterms_normalize hinner
  exact htidy.2 origin horigin (void_of_normalize (htidy.1.of_mem horigin) hvoid)

theorem Term.Tidy.not_retains (htidy : term.Tidy) : ¬ term.Retains Void := by
  rintro ⟨inner, hinner, field, hfield, hvoid⟩
  exact htidy.2 field (mem_subterms_of_child_of_mem hinner (Form.required_subset _ hfield)) hvoid

/-- What both phases leave of a term that was read is tidy. -/
theorem Promotion.tidy_promote (hshallow : term.Shallow) (hsettled : term.Settled .normalization)
    (hstays : (term.promote fresh).gone = false) : (term.promote fresh).term.Tidy := by
  have hpromoted := settled_promote hshallow hstays
  refine ⟨clean_promote hshallow (Normalization.clean_of_settled hsettled) hstays, ?_⟩
  exact fun inner hinner => not_void_of_settled (hpromoted.of_mem hinner)

/-- What is found by going down from a term is in it. -/
theorem Term.mem_subterms_of_descend {place : Place} {inner : Term ι}
    (hdescend : descend form term place = some inner) : inner ∈ term.subterms := by
  induction place generalizing term with
  | nil =>
      obtain rfl := Option.some.inj hdescend
      exact term.mem_subterms_self
  | cons position place ih =>
      rw [descend] at hdescend
      obtain ⟨child, hchild, hbelow⟩ := Option.bind_eq_some_iff.mp hdescend
      exact mem_subterms_of_mem_children (List.mem_of_getElem? hchild) (ih hbelow)

namespace Arena

variable {arena : Arena} {root : Id} {file : String} {shouldExecute : Bool} {term : Term Id}
  {config : Config} {leftover : Leftover}

/-- Without a limit, both phases settle on a tidy program. -/
theorem BearsProgram.settled_of_tidy (hprogram : arena.BearsProgram root file shouldExecute term)
    (htidy : term.erase.Tidy) (hlimit : config.maxPasses = none) :
    (arena.normalized config root).settled = true ∧
      (arena.promoted config root).settled = true := by
  have hunlimited (arena : Arena) : arena.limit config = arena.patience := by
    rw [limit, hlimit, Option.getD_none]
  have hclogged : ¬ arena.Clogged root := hprogram.clogged_iff.not.mpr htidy.1.not_retains
  constructor
  · rw [normalized, hunlimited,
      settle_of_le (hprogram.settled_of_not_clogged hclogged) hprogram.passes_le_patience]
    exact hprogram.settled_of_not_clogged hclogged
  · -- Normalization keeps the program tidy, so promotion finds no void statement in a field.
    obtain ⟨normal, hnormal⟩ := hprogram.exists_ran .normalization (arena.limit config)
    have htidy' := hnormal.keeps Term.Tidy (fun _ => Normalization.tidy_normalize ()) htidy
    have hretains := hnormal.program.retains_void_iff.not.mpr htidy'.not_retains
    have hsettled : ((arena.normalized config root).arena.settle .promotion root 2).settled =
        true := by
      rcases hnormal.program.settle_of_not_retains_void hretains with ⟨-, hrun⟩ | ⟨-, hrun⟩
      · exact congrArg Run.settled hrun
      · exact congrArg Run.settled hrun
    rw [promoted, hunlimited, settle_of_le hsettled (by rw [patience]; omega)]
    exact hsettled

/-- When both phases settle, an optimization with validation fails as validation does. -/
theorem BearsProgram.outcome_eq_error_iff
    (hprogram : arena.BearsProgram root file shouldExecute term)
    (hnormal : (arena.normalized config root).settled = true)
    (hpromoted : (arena.promoted config root).settled = true) (hvalidate : config.validate = true)
    (failure : Failure) :
    (arena.optimize root config).outcome = .error failure ↔
      (arena.promoted config root).arena.validate root = .error failure := by
  have houtcome := (optimize_of_settled hprogram.kind_eq hnormal
    (hprogram.kind_normalized config) hpromoted).2
  rw [houtcome, if_pos hvalidate]
  cases (arena.promoted config root).arena.validate root with
  | ok => exact ⟨(nomatch ·), (nomatch ·)⟩
  | error other => exact ⟨fun heq => by cases heq; rfl, fun heq => by cases heq; rfl⟩

theorem BearsProgram.validate_iff (hprogram : arena.BearsProgram root file shouldExecute term) :
    arena.validate root = .error (.unreduced leftover) ↔
      term.erase.outline.leftover? id none {} = some leftover := by
  rw [← hprogram.label, hprogram.bears.validate_iff]

/-- Where a tidy program is rejected at a settled node, optimizing it reports that node. -/
theorem BearsProgram.outcome_of_rejected
    (hprogram : arena.BearsProgram root file shouldExecute term) (htidy : term.erase.Tidy)
    {reported : Term Unit} {reason : Reason} {positions : List Nat}
    (hrejected : Term.Rejected reason reported none positions term.erase)
    (hsettled : ∀ phase, reported.Settled phase) :
    (arena.optimize root).outcome =
      .error (.unreduced { kind := reported.kind, path := ⟨positions⟩, reason }) := by
  have hvisit (phase : Phase) (other : Term Unit)
      (hother : Term.Rejected reason reported none positions other) :
      Term.Rejected reason reported none positions (other.visit phase ()).term :=
    (hother.visit (hsettled phase) ()).2.2
  obtain ⟨hnormal, hpromoted⟩ : (arena.normalized {} root).settled = true ∧
      (arena.promoted {} root).settled = true := hprogram.settled_of_tidy htidy rfl
  obtain ⟨normal, hran⟩ := hprogram.exists_ran .normalization (arena.limit {})
  obtain ⟨result, hran'⟩ :=
    hran.program.exists_ran .promotion ((arena.normalized {} root).arena.limit {})
  -- The rejection outlasts the passes of both phases.
  have hresult := hran'.keeps _ (hvisit .promotion) (hran.keeps _ (hvisit .normalization) hrejected)
  rw [hprogram.outcome_eq_error_iff hnormal hpromoted rfl]
  exact hran'.program.validate_iff.mpr (hresult.leftover? {})

/-! ## The node that was reported -/

/-- No node from the given one on matches a rule of the phase. -/
def Settled (arena : Arena) (phase : Phase) (id : Id) : Prop :=
  ∀ below ∈ (arena.tree id).preorder, phase.catalogue.plan? arena.form below = none

/-- From the given node on, every grouping that stands directly in an expression is an expression
itself. -/
def Plain (arena : Arena) (id : Id) : Prop :=
  ∀ holder ∈ (arena.tree id).preorder, (arena.form holder).hasRole .expression = true →
    ∀ child ∈ arena.children holder, (arena.form child).hasRole .primitive = true →
      (arena.form child).hasRole .expression = true

instance (arena : Arena) (phase : Phase) (id : Id) : Decidable (arena.Settled phase id) :=
  inferInstanceAs (Decidable (∀ below ∈ _, _))

instance (arena : Arena) (id : Id) : Decidable (arena.Plain id) :=
  inferInstanceAs (Decidable (∀ holder ∈ _, _))

theorem Bears.settled_iff (hbears : arena.Bears term) (phase : Phase) :
    arena.Settled phase term.label ↔ term.Settled phase := by
  rw [Settled, hbears.preorder_tree, Term.labels, List.forall_mem_map, Term.Settled]
  exact forall₂_congr fun inner hinner =>
    hbears.holds.views.plan?_eq_none_iff hinner phase.catalogue

theorem Bears.plain_iff (hbears : arena.Bears term) : arena.Plain term.label ↔ term.Plain := by
  rw [Plain, hbears.preorder_tree, Term.labels, List.forall_mem_map, Term.Plain]
  refine forall₂_congr fun inner hinner => ?_
  rw [(hbears.holds.of_mem hinner).children_eq, List.forall_mem_map]
  simp only [Form.hasRole]
  have hkind (other : Term Id) (hother : other ∈ term.subterms) :
      (arena.form other.label).kind = other.kind := (hbears.holds.of_mem hother).kind_eq
  rw [hkind inner hinner]
  refine imp_congr_right fun _ => forall₂_congr fun child hchild => ?_
  rw [hkind child (Term.mem_subterms_of_child_of_mem hinner hchild), Term.kind]

/-! ## What both phases leave of a program that was read -/

/-- How a program that was read ends: promotion has visited it once, after normalization had settled
it. -/
structure Ended (after : Arena) (root : Id) (file : String) (middle result : Term Id) : Prop where
  shallow : middle.erase.Shallow
  normalized : middle.erase.Settled .normalization
  program : after.BearsProgram root file true result
  term_eq : (middle.erase.promote ()).term = result.erase
  stays : (middle.erase.promote ()).gone = false

namespace Ended

variable {after : Arena} {middle result : Term Id}

theorem tidy (hended : Ended after root file middle result) : result.erase.Tidy :=
  hended.term_eq ▸ Promotion.tidy_promote hended.shallow hended.normalized hended.stays

theorem settled_promotion (hended : Ended after root file middle result) :
    result.erase.Settled .promotion :=
  hended.term_eq ▸ Promotion.settled_promote hended.shallow hended.stays

/-- Of a plain program, nothing is left to normalize. -/
theorem settled_normalization (hended : Ended after root file middle result)
    (hplain : middle.erase.Plain) : result.erase.Settled .normalization :=
  hended.term_eq ▸
    Promotion.settled_normalization_promote hended.shallow hplain hended.normalized hended.stays

theorem firm (hended : Ended after root file middle result) {inner : Term Unit}
    (hinner : inner ∈ result.erase.subterms) (hprimitive : inner.form.hasRole .primitive = false) :
    inner.Firm := by
  rw [← hended.term_eq] at hinner
  have htyped := Promotion.typed_promote hended.shallow hended.stays inner hinner
  exact Term.firm_of_typed htyped hprimitive

/-- The node that validation reports is the one at the end of the path, and it is reported again if
normalization has nothing to do there. -/
theorem exists_reported (hended : Ended after root file middle result)
    (hinvalid : after.validate root = .error (.unreduced leftover)) :
    ∃ reported ∈ result.subterms,
      descend after.form root leftover.path.positions = some reported.label ∧
        reported.kind = leftover.kind ∧
          (reported.Settled .normalization →
            (after.optimize root).outcome = .error (.unreduced leftover)) := by
  obtain ⟨reason, found, positions, hrejected, rfl⟩ :=
    Term.exists_rejected (hended.program.validate_iff.mp hinvalid) fun _ => hended.firm
  have hdescend := hrejected.descend_eq
  rw [Term.erase, (Term.views_map fun _ => ()).descend_eq trivial] at hdescend
  obtain ⟨reported, hreported, rfl⟩ := Option.map_eq_some_iff.mp hdescend
  have hmem := Term.mem_subterms_of_descend hreported
  have hviews := hended.program.bears.holds.views
  refine ⟨reported, hmem, ?_, (Term.kind_map _ _).symm, fun hnormal => ?_⟩
  · have hlabel := hviews.descend_eq result.mem_subterms_self positions
    rw [hreported, hended.program.label] at hlabel
    exact hlabel
  · refine hended.program.outcome_of_rejected hended.tidy hrejected fun phase => ?_
    refine Term.settled_map.mpr ?_
    cases phase with
    | normalization => exact hnormal
    | promotion => exact (Term.settled_map.mp hended.settled_promotion).of_mem hmem

end Ended

theorem BearsSketch.exists_ended {sketch : Sketch}
    (hsketch : arena.BearsSketch root file sketch term) :
    ∃ middle result, Ended (arena.optimize root).arena root file middle result ∧
      (term.Plain → middle.erase.Plain) ∧
        ∀ failure, (arena.optimize root).outcome = .error failure ↔
          (arena.optimize root).arena.validate root = .error failure := by
  have hprogram := hsketch.program
  obtain ⟨hnormal, hpromoted⟩ : (arena.normalized {} root).settled = true ∧
      (arena.promoted {} root).settled = true :=
    hprogram.settled_of_unlimited hsketch.shallow rfl
  obtain ⟨middle, result, hran, hresult, hterm, hstays⟩ := hsketch.exists_promoted hpromoted
  have harena : (arena.optimize root).arena = (arena.promoted {} root).arena :=
    (optimize_of_settled hprogram.kind_eq hnormal (hprogram.kind_normalized {}) hpromoted).1
  refine ⟨middle, result, ?_, fun hplain => ?_, fun failure => ?_⟩
  · rw [harena]
    exact {
      shallow := Term.shallow_map.mpr (hran.shallow hsketch.shallow)
      normalized := hran.settled_erase hnormal
      program := hresult
      term_eq := hterm
      stays := hstays }
  · exact hran.keeps Term.Plain (fun _ => Normalization.plain_normalize ())
      (Term.plain_map.mpr hplain)
  · rw [harena]
    exact hprogram.outcome_eq_error_iff hnormal hpromoted rfl failure

/-- Only programs are rejected for what is left over. -/
theorem kind_of_optimize_eq_unreduced
    (hrejected : (arena.optimize root config).outcome = .error (.unreduced leftover)) :
    arena.kind root = .group .program := by
  by_contra hkind
  rw [optimize, ensureProgram, if_neg hkind] at hrejected
  cases hrejected

/-- Whether a rejection is final. When a program that was read is rejected, optimizing it again, as
it was left, rejects it in the same way if no rule of normalization matches a node from the reported
one on, and so it does if every grouping that stands directly in an expression of the source is an
expression itself. -/
theorem rejected_again {source : String} {before : Arena}
    (hparse : parseSource file source = .ok (root, before))
    (hrejected : (before.optimize root).outcome = .error (.unreduced leftover)) :
    (∃ reported,
      descend (before.optimize root).arena.form root leftover.path.positions = some reported ∧
        (before.optimize root).arena.kind reported = leftover.kind ∧
          ((before.optimize root).arena.Settled .normalization reported →
            ((before.optimize root).arena.optimize root).outcome = .error (.unreduced leftover))) ∧
      (before.Plain root →
        ((before.optimize root).arena.optimize root).outcome = .error (.unreduced leftover)) := by
  obtain ⟨sketch, term, -, hsketch⟩ :=
    exists_bearsSketch hparse (kind_of_optimize_eq_unreduced hrejected)
  obtain ⟨middle, result, hended, hplain, houtcome⟩ := hsketch.exists_ended
  obtain ⟨reported, hmem, hdescend, hkind, hagain⟩ :=
    hended.exists_reported ((houtcome _).mp hrejected)
  have hbears := hended.program.bears.of_mem hmem
  constructor
  · refine ⟨reported.label, hdescend, hbears.holds.kind_eq.trans hkind, fun hsettled => ?_⟩
    exact hagain ((hbears.settled_iff .normalization).mp hsettled)
  · intro hplain_before
    rw [← hsketch.program.label, hsketch.program.bears.plain_iff] at hplain_before
    have hsettled := Term.settled_map.mp (hended.settled_normalization (hplain hplain_before))
    exact hagain (hsettled.of_mem hmem)

/-- An expression that is left over as the first thing in a program. -/
def firstExpression : Leftover where
  kind := .group (.provisional .expression)
  path := ⟨[0]⟩
  reason := .provisional

theorem rejected_again_twoNames :
    (∃ root before,
      parseSource "main" "(Program (Expression x y) (Expression (Statement z)))" =
          .ok (root, before) ∧
        ((before.optimize root).arena.optimize root).outcome =
          .error (.unreduced firstExpression)) ∧
      ∃ root before, parseSource "main" "(Program (Expression x y))" = .ok (root, before) ∧
        ((before.optimize root).arena.optimize root).outcome =
          .error (.unreduced firstExpression) := by
  constructor
  · obtain ⟨root, before, hparse, hrejected, hsettled⟩ :
        ∃ root before, parseSource "main" "(Program (Expression x y) (Expression (Statement z)))" =
            .ok (root, before) ∧
          (before.optimize root).outcome = .error (.unreduced firstExpression) ∧
            ∀ reported ∈ descend (before.optimize root).arena.form root [0],
              (before.optimize root).arena.Settled .normalization reported :=
      exists_of_any_parseSource (by decide +kernel)
    obtain ⟨reported, hdescend, -, hagain⟩ := (rejected_again hparse hrejected).1
    exact ⟨root, before, hparse, hagain (hsettled reported hdescend)⟩
  · obtain ⟨root, before, hparse, hrejected, hplain⟩ :
        ∃ root before, parseSource "main" "(Program (Expression x y))" = .ok (root, before) ∧
          (before.optimize root).outcome = .error (.unreduced firstExpression) ∧
            before.Plain root :=
      exists_of_any_parseSource (by decide +kernel)
    exact ⟨root, before, hparse, (rejected_again hparse hrejected).2 hplain⟩

/-- A rejection need not be final: here promotion unwraps the statement, and only then can the
expression around it be lifted. -/
theorem rejected_once_wrappedStatement :
    ∃ root before report, parseSource "main" "(Program (Expression (Statement x)))" =
        .ok (root, before) ∧
      (before.optimize root).outcome = .error (.unreduced firstExpression) ∧
        ((before.optimize root).arena.optimize root).outcome = .ok report := by
  obtain ⟨root, before, hparse, hrejected, haccepted⟩ :
      ∃ root before, parseSource "main" "(Program (Expression (Statement x)))" =
          .ok (root, before) ∧
        (before.optimize root).outcome = .error (.unreduced firstExpression) ∧
          ((before.optimize root).arena.optimize root).outcome =
            .ok { normalization := ⟨2, 1⟩, promotion := ⟨1, 0⟩ } :=
    exists_of_any_parseSource (by decide +kernel)
  exact ⟨root, before, _, hparse, hrejected, haccepted⟩

end Arena

end AstPromotion
