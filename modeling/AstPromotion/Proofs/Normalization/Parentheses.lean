import AstPromotion.Proofs.Normalization.Termination
import AstPromotion.Proofs.Outline

/-! # How deep an expression is in parentheses

Two nestings of wrappers around one expression stay nestings around one and the
same expression while they are normalized, so they end alike. The exception is a
literal: its own wrapper may give way before the parentheses around it are looked
at, and parentheses around a bare literal are not taken off.
-/

namespace AstPromotion

namespace Normalization

open Term (node rebuild)

variable {ι : Type} {fresh : ι} {term child : Term ι}

/-- Children that are another term, alone or in parentheses. -/
def Wrapping (children : List (Term ι)) (child : Term ι) : Prop :=
  children = [child] ∨ ∃ opening closing, children = [opening, child, closing] ∧
    opening.kind = leftParenKind ∧ closing.kind = rightParenKind

/-- A core inside any number of wrappers. A wrapper need not be one that a rule matches: what is in
the parentheses may be no expression. -/
inductive Enclosed (core : Term ι → Prop) : Term ι → Prop
  | core {term : Term ι} (hcore : core term) : Enclosed core term
  | wrapper {term child : Term ι} (hrole : term.form.hasRole .expression = true)
      (hchildren : Wrapping term.children child) (hchild : Enclosed core child) : Enclosed core term

theorem Enclosed.trans {core core' : Term ι → Prop}
    (hcore : ∀ term, core term → Enclosed core' term) (henclosed : Enclosed core term) :
    Enclosed core' term := by
  induction henclosed with
  | core hterm => exact hcore _ hterm
  | wrapper hrole hchildren _ ih => exact .wrapper hrole hchildren ih

theorem Enclosed.hasRole {core : Term ι → Prop} (henclosed : Enclosed core term)
    (hcore : ∀ term, core term → term.form.hasRole .expression = true) :
    term.form.hasRole .expression = true := by
  cases henclosed with
  | core hterm => exact hcore _ hterm
  | wrapper hrole _ _ => exact hrole

theorem Wrapping.mem (hchildren : Wrapping term.children child) : child ∈ term.children :=
  mem_children_of_lifted hchildren

/-- What is lifted out of a wrapper is what it wraps. -/
theorem Wrapping.eq_of_wrapping {other : Term ι} (hchildren : Wrapping term.children child)
    (hother : Wrapping term.children other) : other = child := by
  rcases hchildren with hchildren | ⟨_, _, hchildren, -, -⟩ <;>
    rcases hother with hother | ⟨_, _, hother, -, -⟩ <;> rw [hchildren] at hother <;> cases hother <;>
    rfl

/-- Visiting below a wrapper visits what it wraps. -/
theorem Wrapping.rebuild (hchildren : Wrapping term.children child)
    (hstays : (child.normalize fresh).gone = false) :
    Wrapping (rebuild term.label (term.form.map (Term.normalize fresh))).children
      (child.normalize fresh).term := by
  have hall : ∀ other ∈ term.form.children, (other.normalize fresh).gone = false := by
    intro other hother
    rcases eq_or_of_lifted hchildren hother with rfl | hkind | hkind
    · exact hstays
    · exact (normalize_of_paren fresh hkind rfl).2
    · exact (normalize_of_paren fresh hkind rfl).2
  rw [Term.children_rebuild, Form.prune_eq_self hall, ← Term.children]
  rcases hchildren with hchildren | ⟨opening, closing, hchildren, hopening, hclosing⟩
  · exact Or.inl (by rw [hchildren]; rfl)
  · refine Or.inr ⟨opening, closing, ?_, hopening, hclosing⟩
    rw [hchildren, List.map_cons, List.map_cons, List.map_singleton,
      (normalize_of_paren fresh hopening rfl).1, (normalize_of_paren fresh hclosing rfl).1]

/-- A visit leaves nested wrappers nested around what it makes of their core, whether it offers the
outermost one or goes on below it. -/
theorem Enclosed.normalize {core : Term ι → Prop} (henclosed : Enclosed core term) (fresh : ι)
    (core' : Term ι → Prop)
    (hoffered : ∀ term, core term →
      (term.normalize fresh).gone = false ∧ core' (term.normalize fresh).term)
    (hrebuilt : ∀ term, core term →
      core' (Term.rebuild term.label (term.form.map (Term.normalize fresh)))) :
    (term.normalize fresh).gone = false ∧ Enclosed core' (term.normalize fresh).term ∧
      Enclosed core' (Term.rebuild term.label (term.form.map (Term.normalize fresh))) := by
  induction henclosed with
  | core hcore =>
      exact ⟨(hoffered _ hcore).1, .core (hoffered _ hcore).2, .core (hrebuilt _ hcore)⟩
  | @wrapper term child hrole hchildren hchild ih =>
      obtain ⟨hstays, hvisited, hbelow⟩ := ih
      have hrole' : (Term.rebuild term.label
          (term.form.map (Term.normalize fresh))).form.hasRole .expression = true := by
        rwa [Form.hasRole, ← Term.kind, Term.kind_rebuild]
      have hwrapper : Enclosed core' (Term.rebuild term.label
          (term.form.map (Term.normalize fresh))) :=
        .wrapper hrole' (hchildren.rebuild hstays) hvisited
      cases offered fresh term with
      | unmatched hplan hoffer =>
          rw [Term.normalize_of_stays (by rw [hoffer]), hoffer]
          exact ⟨rfl, hwrapper, hwrapper⟩
      | read hform hread hterm hgone hevents =>
          rw [hform, Form.hasRole, Form.kind, hasRole_of_leaf] at hrole
          cases hrole
      | lifted hsubject hoperand hlifted hterm hgone hevents hinner =>
          -- The visit goes on below the child, which is not offered in the wrapper's place.
          obtain rfl := hchildren.eq_of_wrapping hlifted
          rw [Term.normalize_of_stays hgone, hterm]
          exact ⟨rfl, hbelow, hwrapper⟩
      | stripped hsubject hoffer =>
          have hnone := children_of_isSeparator hsubject
          have hmem := hchildren.mem
          rw [Term.children, hnone] at hmem
          cases hmem

/-! ## What is at the bottom -/

/-- What normalization reads a leaf's payload as. -/
def coerced (kind : LeafKind) : Value → Value
  | .raw text => (readValue kind text).getD (.raw text)
  | value => value

/-- A literal that stands for a value, whether or not it has been read. -/
def Stands (literal : Literal) (value : Value) (term : Term ι) : Prop :=
  ∃ payload, term.form = .leaf (.literal literal) payload ∧ coerced (.literal literal) payload = value

theorem coerced_of_readValue {kind : LeafKind} {text : String} {value : Value}
    (hread : readValue kind text = some value) : coerced kind value = value := by
  cases value with
  | raw other => exact absurd hread ne_raw_of_readValue
  | _ => rfl

/-- Reading a literal leaves what it stands for as it is. -/
theorem Stands.normalize {literal : Literal} {value : Value} (hstands : Stands literal value term) :
    (term.normalize fresh).gone = false ∧ Stands literal value (term.normalize fresh).term := by
  obtain ⟨payload, hform, rfl⟩ := hstands
  rw [← term.node_eta, hform]
  -- Either the payload is text that is read now, or the leaf is left alone.
  by_cases hread : ∃ text value, payload = .raw text ∧ readValue (.literal literal) text = some value
  · obtain ⟨text, value, rfl, hread⟩ := hread
    obtain ⟨hterm, hgone⟩ : _ ∧ ((node term.label _).normalize fresh).gone = false :=
      normalize_of_readValue fresh hread
    rw [hterm, coerced, hread, Option.getD_some]
    exact ⟨hgone, value, rfl, coerced_of_readValue hread⟩
  · have hsmooth : ¬ (node term.label (.leaf (.literal literal) payload)).Rough := by
      rintro (⟨_, text, value, hleaf, hvalue⟩ | hseparator)
      · cases hleaf
        exact hread ⟨text, value, rfl, hvalue⟩
      · cases hseparator
    obtain ⟨hterm, hgone⟩ := normalize_of_not_rough fresh hsmooth
    rw [hterm]
    exact ⟨hgone, payload, rfl, rfl⟩

theorem Stands.rebuild {literal : Literal} {value : Value} (hstands : Stands literal value term) :
    Stands literal value (Term.rebuild term.label (term.form.map (Term.normalize fresh))) := by
  obtain ⟨payload, hform, hvalue⟩ := hstands
  rw [Term.rebuild_of_leaf hform]
  exact ⟨payload, rfl, hvalue⟩

theorem exists_stands (hoperand : term.kind.isOperand = true)
    (hrole : term.form.hasRole .expression = false) : ∃ literal value, Stands literal value term := by
  have hliteral (kind : Kind) : kind.isOperand = true → kind.hasRole .expression = false →
      ∃ literal ∈ Literal.all, kind = .leaf (.literal literal) := by
    revert kind
    decide
  obtain ⟨literal, -, hkind⟩ := hliteral term.kind hoperand hrole
  obtain ⟨payload, hform⟩ := Form.exists_of_kind_leaf hkind
  exact ⟨literal, _, payload, hform, rfl⟩

/-- Below its wrappers every expression is one that is not lifted, or a literal. -/
theorem exists_core (hrole : term.form.hasRole .expression = true) :
    (∃ core : Term ι, Enclosed (· = core) term ∧ core.form.hasRole .expression = true ∧
        catalogue.plan? Term.form core = none) ∨
      ∃ literal value, Enclosed (Stands literal value) term := by
  induction term using Term.induction with
  | step term ih =>
      cases hplan : catalogue.plan? Term.form term with
      | none => exact Or.inl ⟨term, .core rfl, hrole, hplan⟩
      | some planned =>
          obtain ⟨rule, edit⟩ := planned
          -- The two rules that lift a child lead on in the same way.
          have hlifts {child : Term ι} (hchildren : Wrapping term.children child)
              (hoperand : child.kind.isOperand = true) :
              (∃ core : Term ι, Enclosed (· = core) term ∧ core.form.hasRole .expression = true ∧
                  catalogue.plan? Term.form core = none) ∨
                ∃ literal value, Enclosed (Stands literal value) term := by
            cases hbelow : child.form.hasRole .expression with
            | true =>
                rcases ih child hchildren.mem hbelow with
                  ⟨core, henclosed, hcore⟩ | ⟨literal, value, henclosed⟩
                · exact Or.inl ⟨core, .wrapper hrole hchildren henclosed, hcore⟩
                · exact Or.inr ⟨literal, value, .wrapper hrole hchildren henclosed⟩
            | false =>
                obtain ⟨literal, value, hstands⟩ := exists_stands hoperand hbelow
                exact Or.inr ⟨literal, value, .wrapper hrole hchildren (.core hstands)⟩
          cases step_of_plan? hplan with
          | coerce hform hread =>
              rw [hform, Form.hasRole, Form.kind, hasRole_of_leaf] at hrole
              cases hrole
          | unwrap hsubject hchildren hchild => exact hlifts (Or.inl hchildren) hchild
          | unparenthesize hsubject hchildren hopening hinner hclosing =>
              exact hlifts (Or.inr ⟨_, _, hchildren, hopening, hclosing⟩)
                (isOperand_of_expression hinner)
          | strip hsubject =>
              exact absurd hsubject (not_isSeparator_of_isOperand (isOperand_of_expression hrole))

/-! ## Two nestings at once -/

/-- Two terms that differ at most in how their common core is wrapped. -/
def Alike (first second : Term ι) : Prop :=
  (∃ core : Term ι, core.form.hasRole .expression = true ∧ Enclosed (· = core) first ∧
      Enclosed (· = core) second) ∨
    ∃ literal value, Enclosed (Stands literal value) first ∧ Enclosed (Stands literal value) second

theorem Alike.of_enclosed {core first second : Term ι} (hrole : core.form.hasRole .expression = true)
    (hfirst : Enclosed (· = core) first) (hsecond : Enclosed (· = core) second) :
    Alike first second :=
  Or.inl ⟨core, hrole, hfirst, hsecond⟩

/-- A visit of each keeps them alike. -/
theorem Alike.normalize {first second : Term ι} (halike : Alike first second) (fresh : ι) :
    (first.normalize fresh).gone = false ∧ (second.normalize fresh).gone = false ∧
      Alike (first.normalize fresh).term (second.normalize fresh).term := by
  have hliteral {literal : Literal} {value : Value} {first second : Term ι}
      (hfirst : Enclosed (Stands literal value) first)
      (hsecond : Enclosed (Stands literal value) second) :
      (first.normalize fresh).gone = false ∧ (second.normalize fresh).gone = false ∧
        Alike (first.normalize fresh).term (second.normalize fresh).term := by
    obtain ⟨hstays, hfirst', -⟩ := hfirst.normalize fresh (Stands literal value)
      (fun _ hstands => hstands.normalize) (fun _ hstands => hstands.rebuild)
    obtain ⟨hstays', hsecond', -⟩ := hsecond.normalize fresh (Stands literal value)
      (fun _ hstands => hstands.normalize) (fun _ hstands => hstands.rebuild)
    exact ⟨hstays, hstays', Or.inr ⟨literal, value, hfirst', hsecond'⟩⟩
  rcases halike with ⟨core, hrole, hfirst, hsecond⟩ | ⟨literal, value, hfirst, hsecond⟩
  · rcases exists_core hrole with ⟨inner, hinner, hrole', hplan⟩ | ⟨literal, value, hinner⟩
    · -- The innermost expression is offered in vain, so both visits rebuild it in place.
      have hplan : Phase.normalization.catalogue.plan? Term.form inner = none := hplan
      have hoffer := Term.offer_of_none hplan fresh
      have hvisit : inner.normalize fresh = _ := Term.normalize_of_stays (by rw [hoffer])
      rw [hoffer] at hvisit
      have hrebuilt : (rebuild inner.label (inner.form.map (Term.normalize fresh))).form.hasRole
          .expression = true := by
        rwa [Form.hasRole, ← Term.kind, Term.kind_rebuild]
      have hnested {outer : Term ι} (houter : Enclosed (· = core) outer) :
          (outer.normalize fresh).gone = false ∧
            Enclosed (· = rebuild inner.label (inner.form.map (Term.normalize fresh)))
              (outer.normalize fresh).term := by
        have hinner_outer : Enclosed (· = inner) outer := houter.trans fun term heq => by rwa [heq]
        obtain ⟨hstays, hvisited, -⟩ := hinner_outer.normalize fresh
          (· = rebuild inner.label (inner.form.map (Term.normalize fresh)))
          (by rintro _ rfl; rw [hvisit]; exact ⟨rfl, rfl⟩) (by rintro _ rfl; rfl)
        exact ⟨hstays, hvisited⟩
      exact ⟨(hnested hfirst).1, (hnested hsecond).1,
        .of_enclosed hrebuilt (hnested hfirst).2 (hnested hsecond).2⟩
    · exact hliteral (hfirst.trans fun term heq => by rwa [heq])
        (hsecond.trans fun term heq => by rwa [heq])
  · exact hliteral hfirst hsecond

/-! ## Where they end -/

/-- A literal, bare or in one pair of parentheses. -/
def Bracketed (literal : Literal) (value : Value) (term : Term ι) : Prop :=
  term.form = .leaf (.literal literal) value ∨
    term.form.hasRole .expression = true ∧ ∃ opening inner closing,
      term.children = [opening, inner, closing] ∧ opening.kind = leftParenKind ∧
        inner.form = .leaf (.literal literal) value ∧ closing.kind = rightParenKind

theorem Stands.form_eq {literal : Literal} {value : Value} (hstands : Stands literal value term)
    (hplan : catalogue.plan? Term.form term = none) : term.form = .leaf (.literal literal) value := by
  obtain ⟨payload, hform, rfl⟩ := hstands
  cases payload with
  | raw text =>
      cases hread : readValue (.literal literal) text with
      | none => rw [hform, coerced, hread, Option.getD_none]
      | some value => exact absurd hplan (plan?_ne_none_of_step (.coerce hform hread))
  | _ => exact hform

/-- A settled term is no wrapper around an expression. -/
theorem not_wrapping_of_settled (hrole : term.form.hasRole .expression = true)
    (hplan : catalogue.plan? Term.form term = none) (hchild : child.form.hasRole .expression = true) :
    ¬ Wrapping term.children child := by
  rintro (hchildren | ⟨opening, closing, hchildren, hopening, hclosing⟩)
  · exact plan?_ne_none_of_step (.unwrap hrole hchildren (isOperand_of_expression hchild)) hplan
  · exact plan?_ne_none_of_step (.unparenthesize hrole hchildren hopening hchild hclosing) hplan

theorem Enclosed.eq_of_settled {core : Term ι} (henclosed : Enclosed (· = core) term)
    (hrole : core.form.hasRole .expression = true) (hsettled : term.Settled .normalization) :
    term = core := by
  cases henclosed with
  | core heq => exact heq
  | wrapper hrole' hchildren hchild =>
      have hbelow := hchild.hasRole fun term heq => by rwa [heq]
      exact absurd hchildren (not_wrapping_of_settled hrole' (Term.settled_iff.mp hsettled).1 hbelow)

theorem Enclosed.bracketed_of_settled {literal : Literal} {value : Value}
    (henclosed : Enclosed (Stands literal value) term) (hsettled : term.Settled .normalization) :
    Bracketed literal value term := by
  obtain ⟨hplan, hbelow⟩ := Term.settled_iff.mp hsettled
  cases henclosed with
  | core hstands => exact Or.inl (hstands.form_eq hplan)
  | @wrapper term child hrole hchildren hchild =>
      cases hchild with
      | wrapper hrole' _ _ => exact absurd hchildren (not_wrapping_of_settled hrole hplan hrole')
      | core hstands =>
          have hform := hstands.form_eq (Term.settled_iff.mp (hbelow child hchildren.mem)).1
          -- By itself the literal would be lifted; out of parentheses only an expression is.
          rcases hchildren with hchildren | ⟨opening, closing, hchildren, hopening, hclosing⟩
          · have hoperand : child.form.kind.isOperand = true := by
              rw [hform]
              cases literal <;> rfl
            exact absurd hplan (plan?_ne_none_of_step (.unwrap hrole hchildren hoperand))
          · exact Or.inr ⟨hrole, opening, child, closing, hchildren, hopening, hform, hclosing⟩

/-- Settled terms that are alike are equal, or one literal with or without parentheses. -/
theorem Alike.of_settled {first second : Term ι} (halike : Alike first second)
    (hfirst : first.Settled .normalization) (hsecond : second.Settled .normalization) :
    second = first ∨
      ∃ literal value, Bracketed literal value first ∧ Bracketed literal value second := by
  rcases halike with ⟨core, hrole, henclosed, henclosed'⟩ | ⟨literal, value, henclosed, henclosed'⟩
  · refine Or.inl ?_
    rw [henclosed.eq_of_settled hrole hfirst, henclosed'.eq_of_settled hrole hsecond]
  · exact Or.inr ⟨literal, value, henclosed.bracketed_of_settled hfirst,
      henclosed'.bracketed_of_settled hsecond⟩

/-- A visit of a program of one item visits the item. -/
theorem normalize_program (label : ι) (file : String) (shouldExecute : Bool)
    (hstays : (term.normalize fresh).gone = false) :
    ((node label (.group (.program file shouldExecute) [term])).normalize fresh).term =
      node label (.group (.program file shouldExecute) [(term.normalize fresh).term]) := by
  have hvisit := Term.visit_of_container .normalization fresh
    (show (node label (.group (.program file shouldExecute) [term])).kind.isContainer = true from rfl)
  rw [Term.visit, Term.rebuild_of_group (Term.form_node _ _), List.map_singleton,
    Term.remaining_cons, hstays, if_neg Bool.false_ne_true] at hvisit
  rw [hvisit]
  rfl

/-- Any number of visits keep the items of two programs alike. -/
theorem Alike.advance {first second : Term ι} (halike : Alike first second) (label fresh : ι)
    (file : String) (shouldExecute : Bool) (count : Nat) :
    ∃ first' second', Alike first' second' ∧
      (node label (.group (.program file shouldExecute) [first])).advance .normalization fresh count =
          node label (.group (.program file shouldExecute) [first']) ∧
        (node label (.group (.program file shouldExecute) [second])).advance .normalization fresh
            count =
          node label (.group (.program file shouldExecute) [second']) := by
  induction count generalizing first second with
  | zero => exact ⟨first, second, halike, rfl, rfl⟩
  | succ count ih =>
      obtain ⟨hfirst, hsecond, hnext⟩ := halike.normalize fresh
      rw [Term.advance, Term.advance, Term.visit, normalize_program label file shouldExecute hfirst,
        normalize_program label file shouldExecute hsecond]
      exact ih hnext

end Normalization

namespace Sketch

open Normalization (Enclosed Alike Bracketed)
open Term (node)

/-- The sketch in a number of pairs of parentheses, with an expression around each. -/
def parenthesized (sketch : Sketch) : (depth : Nat) → Sketch
  | 0 => sketch
  | depth + 1 =>
    .group (.provisional .expression) [.leaf (.mark (.punctuation .leftParen)),
      sketch.parenthesized depth, .leaf (.mark (.punctuation .rightParen))]

/-- The dump of the program that consists of one sketch, after normalization. -/
def normalDump (file : String) (sketch : Sketch) : Except Failure String :=
  let (root, arena) := (Sketch.group .program [sketch]).plant file {}
  let attempt := arena.runPhase {} .normalization root
  attempt.outcome.map fun _ => attempt.arena.dump root

theorem enclosed_parenthesized (file : String) (sketch : Sketch) (depth : Nat) :
    Enclosed (· = sketch.toTerm file) ((sketch.parenthesized depth).toTerm file) := by
  induction depth with
  | zero => exact .core rfl
  | succ depth ih =>
      rw [parenthesized, toTerm_group]
      exact .wrapper rfl (Or.inr ⟨_, _, rfl, rfl, rfl⟩) ih

/-- The tree of a program of one item. -/
abbrev programTerm (file : String) (item : Term Unit) : Term Unit :=
  node () (.group (.program file true) [item])

/-- Normalization succeeds on a sketch, and its dump is that of the settled tree that visits lead
to. -/
theorem exists_normalDump (file : String) (sketch : Sketch) :
    ∃ count, ((programTerm file (sketch.toTerm file)).advance .normalization () count).Settled
        .normalization ∧
      normalDump file sketch =
        .ok ((programTerm file (sketch.toTerm file)).advance .normalization () count).dump := by
  have hkind := Arena.kind_plant file .program [sketch]
  obtain ⟨term, hsketch⟩ := Arena.exists_bearsSketch_of_plant
    (Prod.mk.eta (p := (Sketch.group .program [sketch]).plant file {})).symm hkind
  obtain ⟨stats, result, count, houtcome, hresult, herase, hsettled⟩ :=
    hsketch.program.exists_normalized hsketch.not_clogged (show ({} : Config).maxPasses = none from rfl)
  have htree : term.erase = programTerm file (sketch.toTerm file) := by
    rw [hsketch.erase_eq, toTerm_group]
    rfl
  rw [htree] at herase
  rw [herase] at hsettled
  refine ⟨count, hsettled, ?_⟩
  have hdump := hresult.bears.dump_eq
  rw [hresult.label, herase] at hdump
  rw [normalDump]
  simp only [houtcome, hdump, Except.map]

/-- How deep an expression is in parentheses makes no difference to its normal form, unless all
that is left of it is a literal: that may be left bare at one depth and in a pair of parentheses at
another. -/
theorem normalDump_parenthesized (file : String) (items : List Sketch) (depth : Nat) :
    ∃ dump dump', normalDump file (.group (.provisional .expression) items) = .ok dump ∧
      normalDump file ((Sketch.group (.provisional .expression) items).parenthesized depth) =
        .ok dump' ∧
      (dump' = dump ∨ ∃ literal value tree tree', Bracketed literal value tree ∧
        Bracketed literal value tree' ∧ dump = (programTerm file tree).dump ∧
          dump' = (programTerm file tree').dump) := by
  generalize hplain : Sketch.group (.provisional .expression) items = plain
  obtain ⟨count, hsettled, hdump⟩ := exists_normalDump file plain
  obtain ⟨count', hsettled', hdump'⟩ := exists_normalDump file (plain.parenthesized depth)
  refine ⟨_, _, hdump, hdump', ?_⟩
  have hrole : (plain.toTerm file).form.hasRole .expression = true := by
    rw [← hplain, toTerm_group]
    rfl
  have halike : Alike (plain.toTerm file) ((plain.parenthesized depth).toTerm file) :=
    .of_enclosed hrole (.core rfl) (enclosed_parenthesized file plain depth)
  -- Further visits of a settled tree are idle, so both may be visited equally often.
  obtain ⟨first, second, hnext, hfirst, hsecond⟩ :=
    halike.advance () () file true (count + count')
  rw [Term.advance_add, Term.advance_of_settled hsettled] at hfirst
  rw [Nat.add_comm, Term.advance_add, Term.advance_of_settled hsettled'] at hsecond
  rw [hfirst] at hsettled ⊢
  rw [hsecond] at hsettled' ⊢
  have hbelow {item : Term Unit} (hprogram : (programTerm file item).Settled .normalization) :
      item.Settled .normalization :=
    (Term.settled_iff.mp hprogram).2 item List.mem_cons_self
  rcases hnext.of_settled (hbelow hsettled) (hbelow hsettled') with
    rfl | ⟨literal, value, hbracketed, hbracketed'⟩
  · exact Or.inl rfl
  · exact Or.inr ⟨literal, value, first, second, hbracketed, hbracketed', rfl, rfl⟩

/-- A name in an expression. -/
def wrappedName : Sketch :=
  .group (.provisional .expression) [.leaf (.word "x")]

/-- In two pairs of parentheses its own wrapper is lifted one visit before the pair around it would
be, and that pair stays. -/
theorem normalDump_wrappedName :
    normalDump "main" (wrappedName.parenthesized 2) ≠ normalDump "main" wrappedName := by
  decide +kernel

end Sketch

end AstPromotion
