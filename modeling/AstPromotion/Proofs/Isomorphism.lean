import AstPromotion.Proofs.Rejection
import Mathlib.Data.Set.Function

/-! # Trees that differ in their ids only

Two trees are isomorphic if the nodes of one can be renamed to those of the
other. Terms have no more to tell them apart than their labels and their abstract
trees, so trees are isomorphic if and only if their abstract trees are the same.
-/

namespace AstPromotion

/-- A form is told by its children and the rest of it. -/
theorem Form.eq_of_children_eq {α : Type} {form other : Form α} (hblank : form.blank = other.blank)
    (hchildren : form.children = other.children) : form = other := by
  cases form with
  | functionLiteral name parameters body =>
      cases other with
      | functionLiteral name' parameters' body' =>
          cases name <;> cases name' <;> simp_all [blank, map, children]
      | _ => cases hblank
  | classLiteral name constructor body =>
      cases other with
      | classLiteral name' constructor' body' =>
          cases constructor <;> cases constructor' <;> simp_all [blank, map, children]
      | _ => cases hblank
  | ifStatement test consequent alternate =>
      cases other with
      | ifStatement test' consequent' alternate' =>
          cases alternate <;> cases alternate' <;> simp_all [blank, map, children]
      | _ => cases hblank
  | _ => cases other <;> simp_all [blank, map, children]

/-- A list without repetitions can be mapped to any list of its length. -/
theorem exists_map_eq {α β : Type} [DecidableEq α] [Inhabited β] {first : List α} {second : List β}
    (hnodup : first.Nodup) (hlength : first.length = second.length) :
    ∃ f : α → β, first.map f = second := by
  refine ⟨fun entry => second.getD (first.idxOf entry) default, ?_⟩
  apply List.ext_getElem
  · rw [List.length_map, hlength]
  · intro position hfirst hsecond
    rw [List.getElem_map, hnodup.idxOf_getElem, List.getD_eq_getElem]

namespace Term

variable {ι κ : Type}

theorem erase_map (f : ι → κ) (term : Term ι) : (term.map f).erase = term.erase := by
  induction term using induction with
  | step term ih =>
      rw [erase, map_eq, form_map, Form.map_map, erase, map_eq]
      congr 1
      exact Form.map_congr ih

theorem length_labels_of_erase_eq {term : Term ι} {other : Term κ} (herase : term.erase = other.erase) :
    term.labels.length = other.labels.length := by
  have hlabels := congrArg (fun abstract => abstract.labels.length) herase
  simpa [erase] using hlabels

theorem children_erase (term : Term ι) : term.erase.children = term.children.map erase :=
  children_map _ term

/-- Where the labels come one term after another, each term takes as many as the one that
corresponds to it. -/
theorem eq_of_flatMap_labels_eq {terms others : List (Term ι)}
    (hterms : ∀ term ∈ terms, ∀ other, term.erase = other.erase → term.labels = other.labels →
      term = other)
    (herase : terms.map erase = others.map erase)
    (hlabels : terms.flatMap labels = others.flatMap labels) : terms = others := by
  induction terms generalizing others with
  | nil => exact (List.map_eq_nil_iff.mp herase.symm).symm
  | cons term rest ih =>
      obtain ⟨other, others, rfl, hother, hothers⟩ := List.map_eq_cons_iff.mp herase.symm
      rw [List.flatMap_cons, List.flatMap_cons] at hlabels
      obtain ⟨hfirst, hrest⟩ := List.append_inj hlabels (length_labels_of_erase_eq hother.symm)
      rw [hterms term List.mem_cons_self other hother.symm hfirst]
      congr 1
      exact ih (fun below hbelow => hterms below (List.mem_cons_of_mem _ hbelow)) hothers.symm hrest

/-- Labels and abstract tree are all there is to a term. -/
theorem eq_of_labels_eq {term other : Term ι} (herase : term.erase = other.erase)
    (hlabels : term.labels = other.labels) : term = other := by
  induction term using induction generalizing other with
  | step term ih =>
      rw [labels_eq, labels_eq other] at hlabels
      obtain ⟨hlabel, hbelow⟩ := List.cons.inj hlabels
      have hchildren : term.children = other.children := by
        apply eq_of_flatMap_labels_eq (fun child hchild _ => ih child hchild) _ hbelow
        rw [← children_erase, herase, children_erase]
      have hblank : term.form.blank = other.form.blank := by
        have hform := congrArg (fun abstract => abstract.form.blank) herase
        simpa only [erase, form_map, Form.blank, Form.map_map] using hform
      rw [← term.node_eta, ← other.node_eta, hlabel, Form.eq_of_children_eq hblank hchildren]

/-- Terms with the same abstract tree differ by a change of labels. -/
theorem exists_map_eq_of_erase_eq {term other : Term Id} (hnodup : term.labels.Nodup)
    (herase : term.erase = other.erase) : ∃ f, term.map f = other := by
  obtain ⟨f, hlabels⟩ := exists_map_eq hnodup (length_labels_of_erase_eq herase)
  refine ⟨f, eq_of_labels_eq ?_ ?_⟩
  · rw [erase_map, herase]
  · rw [labels_map, hlabels]

end Term

namespace Arena

/-- What is reachable from the one root in the one arena and from the other root in the other are
trees, and renaming nodes makes one of them out of the other: the form of a node is the form of its
namesake, with the children renamed. -/
structure Isomorphic (first : Arena) (root : Id) (second : Arena) (root' : Id) : Prop where
  tree : first.IsTree root
  tree' : second.IsTree root'
  renamed : ∃ f : Id → Id, f root = root' ∧
    Set.BijOn f {id | first.Reaches root id} {id | second.Reaches root' id} ∧
      ∀ id, first.Reaches root id → second.form (f id) = (first.form id).map f

variable {first second : Arena} {root root' : Id} {term other : Term Id} {f : Id → Id}

/-- A renaming that keeps forms renames the term. -/
theorem Bears.map_eq (hbears : first.Bears term) (hbears' : second.Bears other)
    (hroot : f term.label = other.label)
    (hforms : ∀ id ∈ term.labels, second.form (f id) = (first.form id).map f) :
    term.map f = other := by
  have hholds : second.Holds (term.map f) := by
    intro inner hinner
    rw [Term.subterms_map] at hinner
    obtain ⟨origin, horigin, rfl⟩ := List.mem_map.mp hinner
    rw [Term.label_map, hforms _ (List.mem_map_of_mem horigin), hbears.holds origin horigin,
      Form.map_map, Term.form_map, Form.map_map]
    exact Form.map_congr fun child _ => (Term.label_map f child).symm
  -- Both are what the second arena unfolds to from the same root.
  have hunfold := unfoldTerm_eq hholds (Nat.le_max_left _ other.labels.length)
  have hunfold' := unfoldTerm_eq hbears'.holds (Nat.le_max_right (term.map f).labels.length _)
  rw [Term.label_map, hroot] at hunfold
  exact hunfold.symm.trans hunfold'

theorem isomorphic_of_map (hbears : first.Bears term) (hbears' : second.Bears (term.map f)) :
    first.Isomorphic term.label second (f term.label) := by
  have htree' := hbears'.isTree
  have hreaches' {id : Id} : second.Reaches (f term.label) id ↔ id ∈ term.labels.map f := by
    rw [← Term.labels_map, ← hbears'.reaches_iff, Term.label_map]
  rw [Term.label_map] at htree'
  refine ⟨hbears.isTree, htree', f, rfl, ⟨?_, ?_, ?_⟩, ?_⟩
  · intro id hreaches
    exact hreaches'.mpr (List.mem_map_of_mem (hbears.reaches_iff.mp hreaches))
  · intro id hreaches id' hreaches' heq
    have hnodup := hbears'.nodup
    rw [Term.labels_map] at hnodup
    exact List.inj_on_of_nodup_map hnodup (hbears.reaches_iff.mp hreaches)
      (hbears.reaches_iff.mp hreaches') heq
  · intro id hreaches
    obtain ⟨origin, horigin, rfl⟩ := List.mem_map.mp (hreaches'.mp hreaches)
    exact ⟨origin, hbears.reaches_iff.mpr horigin, rfl⟩
  · intro id hreaches
    obtain ⟨inner, hinner, rfl⟩ := List.mem_map.mp (hbears.reaches_iff.mp hreaches)
    have hinner' : inner.map f ∈ (term.map f).subterms := by
      rw [Term.subterms_map]
      exact List.mem_map_of_mem hinner
    have hform := hbears'.holds _ hinner'
    rw [Term.label_map, Term.form_map, Form.map_map] at hform
    rw [hform, hbears.holds inner hinner, Form.map_map]
    exact Form.map_congr fun child _ => Term.label_map f child

/-- Trees are isomorphic if and only if they are the same abstract tree. -/
theorem isomorphic_iff (hbears : first.Bears term) (hbears' : second.Bears other) :
    first.Isomorphic term.label second other.label ↔ term.erase = other.erase := by
  constructor
  · rintro ⟨-, -, f, hroot, -, hforms⟩
    have hmap := hbears.map_eq hbears' hroot fun id hid => hforms id (hbears.reaches_iff.mpr hid)
    rw [← hmap, Term.erase_map]
  · intro herase
    obtain ⟨f, rfl⟩ := Term.exists_map_eq_of_erase_eq hbears.nodup herase
    rw [Term.label_map]
    exact isomorphic_of_map hbears hbears'

theorem Isomorphic.exists_terms (hiso : first.Isomorphic root second root') :
    ∃ term other : Term Id, term.label = root ∧ first.Bears term ∧ other.label = root' ∧
      second.Bears other ∧ term.erase = other.erase := by
  obtain ⟨term, rfl, hbears⟩ := hiso.tree.exists_bears
  obtain ⟨other, rfl, hbears'⟩ := hiso.tree'.exists_bears
  exact ⟨term, other, rfl, hbears, rfl, hbears', (isomorphic_iff hbears hbears').mp hiso⟩

/-- It is enough to find a renaming of the nodes of one tree. -/
theorem isomorphic_of_forall (htree : first.IsTree root) (htree' : second.IsTree root')
    (hroot : f root = root')
    (hforms : ∀ id ∈ (first.tree root).preorder, second.form (f id) = (first.form id).map f) :
    first.Isomorphic root second root' := by
  obtain ⟨term, rfl, hbears⟩ := htree.exists_bears
  obtain ⟨other, hlabel, hbears'⟩ := htree'.exists_bears
  rw [hbears.preorder_tree] at hforms
  obtain rfl := hbears.map_eq hbears' (hroot.trans hlabel.symm) hforms
  rw [← hroot]
  exact isomorphic_of_map hbears hbears'

/-! ## What isomorphic trees have in common -/

theorem Isomorphic.kind_eq (hiso : first.Isomorphic root second root') :
    first.kind root = second.kind root' := by
  obtain ⟨term, other, rfl, hbears, rfl, hbears', herase⟩ := hiso.exists_terms
  rw [hbears.holds.kind_eq, hbears'.holds.kind_eq, ← Term.kind_map fun _ => (), ← Term.erase, herase,
    Term.erase, Term.kind_map]

/-- Validation sees no difference. -/
theorem Isomorphic.validate_eq (hiso : first.Isomorphic root second root') :
    first.validate root = second.validate root' := by
  obtain ⟨term, other, rfl, hbears, rfl, hbears', herase⟩ := hiso.exists_terms
  have houtline : term.outline = other.outline := by
    rw [← Term.outline_map fun _ => (), ← Term.erase, herase, Term.erase, Term.outline_map]
  rw [validate, validate, hbears.leftover?_tree, hbears'.leftover?_tree, houtline]

end Arena

end AstPromotion
