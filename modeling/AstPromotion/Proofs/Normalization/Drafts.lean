import AstPromotion.Proofs.Normalization.Settling

/-! # Drafts

A draft of a settled term still has texts to read, separators to strip or
parentheses to take off, but nothing else to change. Visits keep it a draft of
the same term, so that term is what they end with.
-/

namespace AstPromotion.Normalization

open Term (node rebuild remaining)

variable {ι : Type} {fresh : ι}

abbrev leftParenKind : Kind :=
  .leaf (.mark (.punctuation .leftParen))

abbrev rightParenKind : Kind :=
  .leaf (.mark (.punctuation .rightParen))

/-- Terms in a row that are drafts of others in a row. Parentheses may only stand around what is
itself an expression. -/
inductive Drafts : List (Term ι) → List (Term ι) → Prop
  | nil : Drafts [] []
  | separator {draft : Term ι} {drafts plains : List (Term ι)}
      (hkind : isSeparator draft.kind = true) (hrest : Drafts drafts plains) :
      Drafts (draft :: drafts) plains
  | unread {label : ι} {kind : LeafKind} {text : String} {value : Value}
      {drafts plains : List (Term ι)} (hread : readValue kind text = some value)
      (hrest : Drafts drafts plains) :
      Drafts (node label (.leaf kind (.raw text)) :: drafts)
        (node label (.leaf kind value) :: plains)
  | leaf {label : ι} {kind : LeafKind} {value : Value} {drafts plains : List (Term ι)}
      (hsmooth : ¬ (node label (.leaf kind value)).Rough) (hrest : Drafts drafts plains) :
      Drafts (node label (.leaf kind value) :: drafts) (node label (.leaf kind value) :: plains)
  | group {label : ι} {heading : Heading} {items items' drafts plains : List (Term ι)}
      (hitems : Drafts items items') (hrest : Drafts drafts plains) :
      Drafts (node label (.group heading items) :: drafts)
        (node label (.group heading items') :: plains)
  | parenthesized {label : ι} {heading : Heading} {opening inner closing plain : Term ι}
      {drafts plains : List (Term ι)} (hrole : (Kind.group heading.kind).hasRole .expression = true)
      (hopening : opening.kind = leftParenKind) (hclosing : closing.kind = rightParenKind)
      (hplain : plain.form.hasRole .expression = true) (hinner : Drafts [inner] [plain])
      (hrest : Drafts drafts plains) :
      Drafts (node label (.group heading [opening, inner, closing]) :: drafts) (plain :: plains)

namespace Drafts

variable {drafts plains drafts' plains' : List (Term ι)} {draft plain : Term ι}

theorem append (hfirst : Drafts drafts plains) (hsecond : Drafts drafts' plains') :
    Drafts (drafts ++ drafts') (plains ++ plains') := by
  induction hfirst with
  | nil => exact hsecond
  | separator hkind _ ih => exact .separator hkind ih
  | unread hread _ ih => exact .unread hread ih
  | leaf hsmooth _ ih => exact .leaf hsmooth ih
  | group hitems _ _ ih => exact .group hitems ih
  | parenthesized hrole hopening hclosing hplain hinner _ _ ih =>
      exact .parenthesized hrole hopening hclosing hplain hinner ih

theorem exists_append (hdrafts : Drafts (draft :: drafts) plains) :
    ∃ first rest, plains = first ++ rest ∧ Drafts [draft] first ∧ Drafts drafts rest := by
  cases hdrafts with
  | separator hkind hrest => exact ⟨[], _, rfl, .separator hkind .nil, hrest⟩
  | unread hread hrest => exact ⟨[_], _, rfl, .unread hread .nil, hrest⟩
  | leaf hsmooth hrest => exact ⟨[_], _, rfl, .leaf hsmooth .nil, hrest⟩
  | group hitems hrest => exact ⟨[_], _, rfl, .group hitems .nil, hrest⟩
  | parenthesized hrole hopening hclosing hplain hinner hrest =>
      exact ⟨[_], _, rfl, .parenthesized hrole hopening hclosing hplain hinner .nil, hrest⟩

theorem exists_of_cons (hdrafts : Drafts (draft :: drafts) plains)
    (hkind : isSeparator draft.kind = false) :
    ∃ plain rest, plains = plain :: rest ∧ Drafts [draft] [plain] ∧ Drafts drafts rest := by
  cases hdrafts with
  | separator hseparator =>
      rw [hkind] at hseparator
      cases hseparator
  | unread hread hrest => exact ⟨_, _, rfl, .unread hread .nil, hrest⟩
  | leaf hsmooth hrest => exact ⟨_, _, rfl, .leaf hsmooth .nil, hrest⟩
  | group hitems hrest => exact ⟨_, _, rfl, .group hitems .nil, hrest⟩
  | parenthesized hrole hopening hclosing hplain hinner hrest =>
      exact ⟨_, _, rfl, .parenthesized hrole hopening hclosing hplain hinner .nil, hrest⟩

/-- A draft is of the same kind, or else both are expressions. -/
theorem kind_eq_or (hdrafts : Drafts [draft] [plain]) :
    draft.kind = plain.kind ∨
      draft.form.hasRole .expression = true ∧ plain.form.hasRole .expression = true := by
  cases hdrafts with
  | separator _ hrest => cases hrest
  | unread => exact Or.inl rfl
  | leaf => exact Or.inl rfl
  | group => exact Or.inl rfl
  | parenthesized hrole _ _ hplain => exact Or.inr ⟨hrole, hplain⟩

theorem hasRole_iff (hdrafts : Drafts [draft] [plain]) :
    draft.form.hasRole .expression = true ↔ plain.form.hasRole .expression = true := by
  rcases hdrafts.kind_eq_or with hkind | ⟨hdraft, hplain⟩
  · rw [Term.kind, Term.kind] at hkind
    rw [Form.hasRole, Form.hasRole, hkind]
  · exact iff_of_true hdraft hplain

theorem isOperand (hdrafts : Drafts [draft] [plain]) (hoperand : draft.kind.isOperand = true) :
    plain.kind.isOperand = true := by
  rcases hdrafts.kind_eq_or with hkind | ⟨-, hplain⟩
  · rwa [← hkind]
  · rw [Kind.isOperand, Bool.or_eq_true]
    exact Or.inl hplain

theorem kind_of_leaf {kind : LeafKind} (hdrafts : Drafts [draft] [plain])
    (hkind : draft.kind = .leaf kind) : plain.kind = .leaf kind := by
  rcases hdrafts.kind_eq_or with heq | ⟨hrole, -⟩
  · rw [← heq, hkind]
  · rw [Term.kind] at hkind
    rw [Form.hasRole, hkind] at hrole
    rcases kind with _ | _ | (_ | _) <;> cases hrole

/-- If a draft of a group is lifted for its items, so is the group. -/
theorem plan?_ne_none_of_lifted {label : ι} {heading : Heading} {items items' : List (Term ι)}
    {child : Term ι} (hdrafts : Drafts items items')
    (hsubject : (Kind.group heading.kind).hasRole .expression = true)
    (hchild : child.kind.isOperand = true)
    (hitems : items = [child] ∨ ∃ opening closing, items = [opening, child, closing] ∧
      child.form.hasRole .expression = true ∧ opening.kind = leftParenKind ∧
        closing.kind = rightParenKind) :
    catalogue.plan? Term.form (node label (.group heading items')) ≠ none := by
  have hkept {term : Term ι} (hoperand : term.kind.isOperand = true) :
      isSeparator term.kind = false := by
    revert hoperand
    generalize term.kind = kind
    revert kind
    decide
  rcases hitems with rfl | ⟨opening, closing, rfl, hrole, hopening, hclosing⟩
  · obtain ⟨plain, rest, rfl, hplain, hrest⟩ := hdrafts.exists_of_cons (hkept hchild)
    cases hrest
    exact plan?_ne_none_of_step (.unwrap hsubject rfl (hplain.isOperand hchild))
  · obtain ⟨opening', rest, rfl, hopening', hrest⟩ :=
      hdrafts.exists_of_cons (by rw [hopening]; rfl)
    obtain ⟨plain, rest, rfl, hplain, hrest⟩ := hrest.exists_of_cons (hkept hchild)
    obtain ⟨closing', rest, rfl, hclosing', hrest⟩ :=
      hrest.exists_of_cons (by rw [hclosing]; rfl)
    cases hrest
    exact plan?_ne_none_of_step (.unparenthesize hsubject rfl (hopening'.kind_of_leaf hopening)
      (hplain.hasRole_iff.mp hrole) (hclosing'.kind_of_leaf hclosing))

end Drafts

/-! ## One visit -/

theorem gone_normalize_of_isSeparator {term : Term ι} (hkind : isSeparator term.kind = true) :
    (term.normalize fresh).gone = true := by
  have hrole : term.form.hasRole .expression = false := by
    revert hkind
    rw [Form.hasRole, Term.kind]
    generalize term.form.kind = kind
    revert kind
    decide
  cases offered fresh term with
  | unmatched hplan _ => exact absurd hplan (plan?_ne_none_of_step (.strip hkind))
  | @read kind _ _ hform hread =>
      rw [Term.kind, hform] at hkind
      rcases kind with _ | _ | sign
      · cases hkind
      · cases hkind
      · cases hread
  | lifted hsubject =>
      rw [hrole] at hsubject
      cases hsubject
  | stripped _ hoffer =>
      obtain ⟨rule, subject, hoffer⟩ := hoffer
      rw [Term.normalize_of_gone (by rw [hoffer]), hoffer]

/-- A leaf that stays is offered once, and there is nothing below it. -/
theorem normalize_of_leaf {term : Term ι} {label : ι} {kind : LeafKind} {value : Value}
    (hterm : (term.offer .normalization fresh).term = node label (.leaf kind value))
    (hstays : (term.offer .normalization fresh).gone = false) :
    (term.normalize fresh).term = node label (.leaf kind value) ∧
      (term.normalize fresh).gone = false := by
  rw [Term.normalize_of_stays hstays, hterm]
  exact ⟨rfl, rfl⟩

theorem hasRole_of_leaf (kind : LeafKind) : (Kind.leaf kind).hasRole .expression = false := by
  rcases kind with _ | _ | (_ | _) <;> rfl

theorem normalize_of_readValue (fresh : ι) {label : ι} {kind : LeafKind} {text : String} {value : Value}
    (hread : readValue kind text = some value) :
    ((node label (.leaf kind (.raw text))).normalize fresh).term = node label (.leaf kind value) ∧
      ((node label (.leaf kind (.raw text))).normalize fresh).gone = false := by
  cases offered fresh (node label (.leaf kind (.raw text))) with
  | unmatched hplan _ => exact absurd hplan (plan?_ne_none_of_step (.coerce rfl hread))
  | read hform hread' hterm hgone =>
      cases hform
      rw [hread] at hread'
      cases hread'
      exact normalize_of_leaf hterm hgone
  | lifted hsubject =>
      rw [Term.form_node, Form.hasRole, Form.kind, hasRole_of_leaf] at hsubject
      cases hsubject
  | stripped hsubject _ =>
      rcases kind with _ | _ | sign
      · cases hsubject
      · cases hsubject
      · cases hread

theorem normalize_of_not_rough (fresh : ι) {label : ι} {kind : LeafKind} {value : Value}
    (hsmooth : ¬ (node label (.leaf kind value)).Rough) :
    ((node label (.leaf kind value)).normalize fresh).term = node label (.leaf kind value) ∧
      ((node label (.leaf kind value)).normalize fresh).gone = false := by
  cases offered fresh (node label (.leaf kind value)) with
  | unmatched _ hoffer => exact normalize_of_leaf (by rw [hoffer]) (by rw [hoffer])
  | read hform hread => exact absurd (Or.inl ⟨_, _, _, hform, hread⟩) hsmooth
  | lifted hsubject =>
      rw [Term.form_node, Form.hasRole, Form.kind, hasRole_of_leaf] at hsubject
      cases hsubject
  | stripped hsubject _ => exact absurd (Or.inr hsubject) hsmooth

/-- A sign around an expression is left as it is. -/
theorem normalize_of_paren (fresh : ι) {term : Term ι} {sign : Punctuation}
    (hkind : term.kind = .leaf (.mark (.punctuation sign)))
    (hkept : isSeparator (.leaf (.mark (.punctuation sign))) = false) :
    (term.normalize fresh).term = term ∧ (term.normalize fresh).gone = false := by
  cases term with
  | node label form =>
      cases form with
      | leaf kind value =>
          cases hkind
          refine normalize_of_not_rough fresh ?_
          rintro (⟨_, _, _, hform, hread⟩ | hseparator)
          · cases hform
            cases hread
          · rw [Term.kind_node, Form.kind, hkept] at hseparator
            cases hseparator
      | _ => cases hkind

/-- A group that no rule lifts anything out of is visited item by item. -/
theorem normalize_of_group (fresh label : ι) {heading : Heading} {items : List (Term ι)}
    (hkept : ∀ child, child.kind.isOperand = true →
      (Kind.group heading.kind).hasRole .expression = true →
        ¬ (items = [child] ∨ ∃ opening closing, items = [opening, child, closing] ∧
          child.form.hasRole .expression = true ∧ opening.kind = leftParenKind ∧
            closing.kind = rightParenKind)) :
    ((node label (.group heading items)).normalize fresh).term =
        node label (.group heading (remaining (items.map (Term.normalize fresh)))) ∧
      ((node label (.group heading items)).normalize fresh).gone = false := by
  cases offered fresh (node label (.group heading items)) with
  | unmatched _ hoffer =>
      rw [Term.normalize_of_stays (by rw [hoffer]), hoffer]
      exact ⟨rfl, rfl⟩
  | read hform => cases hform
  | @lifted child hsubject hchild hchildren _ _ _ hinner =>
      refine absurd ?_ (hkept child hchild hsubject)
      rcases hchildren with hitems | ⟨opening, closing, hitems, hopening, hclosing⟩
      · exact Or.inl hitems
      · refine Or.inr ⟨opening, closing, hitems, hinner ?_, hopening, hclosing⟩
        rw [hitems]
        exact fun heq => by cases heq
  | stripped hsubject _ => cases heading <;> cases hsubject

/-- Where parentheses are taken off, the visit goes on below what was in them. -/
theorem normalize_of_parenthesized (fresh label : ι) {heading : Heading} {opening inner closing : Term ι}
    (hrole : (Kind.group heading.kind).hasRole .expression = true)
    (hopening : opening.kind = leftParenKind) (hinner : inner.form.hasRole .expression = true)
    (hclosing : closing.kind = rightParenKind) :
    ((node label (.group heading [opening, inner, closing])).normalize fresh).term =
        rebuild inner.label (inner.form.map (Term.normalize fresh)) ∧
      ((node label (.group heading [opening, inner, closing])).normalize fresh).gone = false := by
  cases offered fresh (node label (.group heading [opening, inner, closing])) with
  | unmatched hplan _ =>
      exact absurd hplan (plan?_ne_none_of_step (.unparenthesize hrole rfl hopening hinner hclosing))
  | read hform => cases hform
  | lifted _ _ hchildren hterm hstays =>
      rw [Term.normalize_of_stays hstays, hterm]
      rcases hchildren with hitems | ⟨_, _, hitems, _, _⟩
      · cases hitems
      · cases hitems
        exact ⟨rfl, rfl⟩
  | stripped hsubject _ => cases heading <;> cases hsubject

namespace Drafts

variable {drafts plains : List (Term ι)} {draft plain : Term ι}

/-- A visit keeps drafts of settled terms, also where it goes on below a term without having offered
it. -/
theorem normalize (hdrafts : Drafts drafts plains) (fresh : ι)
    (hsettled : ∀ plain ∈ plains, plain.Settled .normalization) :
    Drafts (remaining (drafts.map (Term.normalize fresh))) plains ∧
      ∀ draft plain, drafts = [draft] → plains = [plain] →
        plain.form.hasRole .expression = true →
          Drafts [rebuild draft.label (draft.form.map (Term.normalize fresh))] [plain] := by
  induction hdrafts with
  | nil => exact ⟨.nil, fun _ _ heq => nomatch heq⟩
  | separator hkind hrest ih =>
      refine ⟨?_, ?_⟩
      · rw [List.map_cons, Term.remaining_cons, if_pos (gone_normalize_of_isSeparator hkind)]
        exact (ih hsettled).1
      · rintro draft plain hdraft rfl -
        cases hdraft
        cases hrest
  | unread hread hrest ih =>
      obtain ⟨hterm, hstays⟩ := normalize_of_readValue fresh hread
      refine ⟨?_, ?_⟩
      · rw [List.map_cons, Term.remaining_cons, hstays, if_neg Bool.false_ne_true, hterm]
        refine .leaf (not_rough_of_readValue hread _) (ih ?_).1
        exact fun plain hplain => hsettled plain (List.mem_cons_of_mem _ hplain)
      · rintro draft plain - hplain hrole
        cases hplain
        rw [Term.form_node, Form.hasRole, Form.kind, hasRole_of_leaf] at hrole
        cases hrole
  | leaf hsmooth hrest ih =>
      obtain ⟨hterm, hstays⟩ := normalize_of_not_rough fresh hsmooth
      refine ⟨?_, ?_⟩
      · rw [List.map_cons, Term.remaining_cons, hstays, if_neg Bool.false_ne_true, hterm]
        refine .leaf hsmooth (ih ?_).1
        exact fun plain hplain => hsettled plain (List.mem_cons_of_mem _ hplain)
      · rintro draft plain - hplain hrole
        cases hplain
        rw [Term.form_node, Form.hasRole, Form.kind, hasRole_of_leaf] at hrole
        cases hrole
  | @group label heading items items' drafts plains hitems hrest ihitems ihrest =>
      obtain ⟨hplan, hbelow⟩ := Term.settled_iff.mp (hsettled _ List.mem_cons_self)
      have hvisited := (ihitems hbelow).1
      obtain ⟨hterm, hstays⟩ := normalize_of_group fresh label
        fun child hchild hsubject hlifted =>
          hitems.plan?_ne_none_of_lifted hsubject hchild hlifted hplan
      refine ⟨?_, ?_⟩
      · rw [List.map_cons, Term.remaining_cons, hstays, if_neg Bool.false_ne_true, hterm]
        refine .group hvisited (ihrest ?_).1
        exact fun plain hplain => hsettled plain (List.mem_cons_of_mem _ hplain)
      · rintro draft plain hdraft hplain -
        cases hdraft
        cases hplain
        exact .group hvisited .nil
  | @parenthesized label heading opening inner closing plain drafts plains hrole hopening hclosing
      hplain hinner hrest ihinner ihrest =>
      obtain ⟨hvisited, hbelow⟩ := ihinner fun other hother =>
        hsettled other (List.mem_singleton.mp hother ▸ List.mem_cons_self)
      obtain ⟨hterm, hstays⟩ := normalize_of_parenthesized fresh label hrole
        hopening (hinner.hasRole_iff.mpr hplain) hclosing
      refine ⟨?_, ?_⟩
      · rw [List.map_cons, Term.remaining_cons, hstays, if_neg Bool.false_ne_true, hterm]
        refine (hbelow inner plain rfl rfl hplain).append (ihrest ?_).1
        exact fun plain hplain => hsettled plain (List.mem_cons_of_mem _ hplain)
      · rintro draft plain hdraft hplain' -
        cases hdraft
        cases hplain'
        obtain ⟨hopened, hopened'⟩ := normalize_of_paren fresh hopening rfl
        obtain ⟨hclosed, hclosed'⟩ := normalize_of_paren fresh hclosing rfl
        have hkept : (inner.normalize fresh).gone = false := by
          rw [List.map_singleton, Term.remaining_cons] at hvisited
          cases hgone : (inner.normalize fresh).gone with
          | false => rfl
          | true =>
              rw [hgone, if_pos rfl] at hvisited
              cases hvisited
        have hitems : remaining ([opening, inner, closing].map (Term.normalize fresh)) =
            [opening, (inner.normalize fresh).term, closing] := by
          simp [remaining, hopened, hopened', hclosed, hclosed', hkept]
        have hinside : remaining ([inner].map (Term.normalize fresh)) =
            [(inner.normalize fresh).term] := by
          simp [remaining, hkept]
        rw [hinside] at hvisited
        rw [Term.form_node, Term.rebuild_of_group rfl, hitems]
        exact .parenthesized hrole hopening hclosing hplain hvisited .nil

/-- A settled draft is what it is a draft of. -/
theorem eq_of_settled (hdrafts : Drafts drafts plains)
    (hsettled : ∀ draft ∈ drafts, draft.Settled .normalization) : drafts = plains := by
  induction hdrafts with
  | nil => rfl
  | separator hkind _ _ =>
      exact absurd (Term.settled_iff.mp (hsettled _ List.mem_cons_self)).1
        (plan?_ne_none_of_step (.strip hkind))
  | unread hread _ _ =>
      exact absurd (Term.settled_iff.mp (hsettled _ List.mem_cons_self)).1
        (plan?_ne_none_of_step (.coerce rfl hread))
  | leaf _ _ ih => rw [ih fun draft hdraft => hsettled draft (List.mem_cons_of_mem _ hdraft)]
  | group _ _ ihitems ihrest =>
      rw [ihitems (Term.settled_iff.mp (hsettled _ List.mem_cons_self)).2,
        ihrest fun draft hdraft => hsettled draft (List.mem_cons_of_mem _ hdraft)]
  | parenthesized hrole hopening hclosing hplain hinner _ _ _ =>
      exact absurd (Term.settled_iff.mp (hsettled _ List.mem_cons_self)).1
        (plan?_ne_none_of_step (.unparenthesize hrole rfl hopening (hinner.hasRole_iff.mpr hplain)
          hclosing))

/-- A run of visits that settles on a draft of a program ends with the program. -/
theorem settle_eq {limit : Nat} (hdraft : Drafts [draft] [plain])
    (hcontainer : draft.kind.isContainer = true) (hplain : plain.Settled .normalization)
    (hsettled : (draft.settle .normalization fresh limit).1 = true) :
    (draft.settle .normalization fresh limit).2 = plain := by
  have hkept : Drafts [(draft.settle .normalization fresh limit).2] [plain] ∧
      (draft.settle .normalization fresh limit).2.kind.isContainer = true := by
    refine Term.settle_induction (fun term => Drafts [term] [plain] ∧
      term.kind.isContainer = true) ?_ ⟨hdraft, hcontainer⟩
    rintro term ⟨hterm, hkind⟩
    have hvisited := (hterm.normalize fresh (by simpa using hplain)).1
    have hitems : remaining ([term].map (Term.normalize fresh)) = [(term.normalize fresh).term] := by
      simp [remaining, gone_normalize_of_container hkind]
    rw [hitems] at hvisited
    rw [Term.visit, kind_normalize_of_container hkind]
    exact ⟨hvisited, hkind⟩
  have hlast := Term.settled_of_settle hsettled
  exact (List.cons.inj (hkept.1.eq_of_settled (by simpa using hlast))).1

end Drafts

end AstPromotion.Normalization
