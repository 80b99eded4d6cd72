import AstPromotion.Proofs.Normalization.Invariant
import AstPromotion.Proofs.Reachable
import Mathlib.Algebra.FreeMonoid.Basic

/-! # The contents of a program

Literals, operators and containers are what a program says; the rest spells how
it is to be grouped. Contents are listed in the order in which they are read,
each node with its kind.
-/

namespace AstPromotion

/-- Whether a node is to be kept: a literal, an operator other than the one that assigns, or a
container. -/
def Kind.isContent : Kind → Bool
  | .leaf (.literal _) => true
  | .leaf (.mark (.operator sign)) => sign != .assignment
  | kind => kind.isContainer

namespace Term

variable {ι κ : Type}

/-- The node itself, if it is to be kept. -/
def own (term : Term ι) : List (ι × Kind) :=
  if term.kind.isContent then [(term.label, term.kind)] else []

/-- The nodes of a term that are to be kept. -/
def contents (term : Term ι) : List (ι × Kind) :=
  term.subterms.flatMap own

theorem contents_eq (term : Term ι) :
    term.contents = term.own ++ term.children.flatMap contents := by
  rw [contents, subterms_eq, List.flatMap_cons, List.flatMap_assoc]
  rfl

theorem contents_of_leaf {term : Term ι} {kind : LeafKind} {value : Value}
    (hform : term.form = .leaf kind value) : term.contents = term.own := by
  rw [contents_eq, children, hform]
  exact List.append_nil _

theorem own_of_kind {term : Term ι} (hkind : term.kind.isContent = false) : term.own = [] := by
  rw [own, if_neg (Bool.eq_false_iff.mp hkind)]

theorem own_of_construct {term : Term ι} {built : Construct}
    (hkind : term.kind = .construct built) : term.own = [] := by
  apply own_of_kind
  rw [hkind]
  rfl

/-- Whether a node is kept depends on its label and kind only. -/
theorem own_congr {first second : Term ι} (hlabel : first.label = second.label)
    (hkind : first.kind = second.kind) : first.own = second.own := by
  rw [own, own, hlabel, hkind]

theorem own_map (f : ι → κ) (term : Term ι) :
    (term.map f).own = term.own.map fun (label, kind) => (f label, kind) := by
  rw [own, own, kind_map, label_map]
  split <;> rfl

theorem contents_map (f : ι → κ) (term : Term ι) :
    (term.map f).contents = term.contents.map fun (label, kind) => (f label, kind) := by
  rw [contents, contents, subterms_map, List.flatMap_map, List.map_flatMap]
  exact List.flatMap_congr fun inner _ => own_map f inner

theorem mem_labels_of_mem_contents {term : Term ι} {content : ι × Kind}
    (hcontent : content ∈ term.contents) : content.1 ∈ term.labels := by
  obtain ⟨inner, hinner, hown⟩ := List.mem_flatMap.mp hcontent
  rw [own] at hown
  split at hown
  · obtain rfl := List.mem_singleton.mp hown
    exact List.mem_map_of_mem hinner
  · cases hown

theorem contents_subset_of_mem_subterms {term inner : Term ι} (hinner : inner ∈ term.subterms) :
    inner.contents ⊆ term.contents := by
  intro content hcontent
  obtain ⟨other, hother, hown⟩ := List.mem_flatMap.mp hcontent
  exact List.mem_flatMap.mpr ⟨other, mem_subterms_trans hinner hother, hown⟩

end Term

namespace Arena

/-- The nodes below a root that are to be kept, from left to right. -/
def contents (arena : Arena) (root : Id) : List (Id × Kind) :=
  ((arena.tree root).preorder.map fun id => (id, arena.kind id)).filter (·.2.isContent)

theorem Bears.contents_eq {arena : Arena} {term : Term Id} (hbears : arena.Bears term) :
    arena.contents term.label = term.contents := by
  have heach (terms : List (Term Id)) (hterms : ∀ inner ∈ terms, arena.Holds inner) :
      ((terms.map Term.label).map fun id => (id, arena.kind id)).filter (·.2.isContent) =
        terms.flatMap Term.own := by
    induction terms with
    | nil => rfl
    | cons term rest ih =>
        rw [List.map_cons, List.map_cons, List.filter_cons,
          ih fun inner hinner => hterms inner (List.mem_cons_of_mem _ hinner), List.flatMap_cons,
          Term.own, (hterms term List.mem_cons_self).kind_eq]
        split <;> rfl
  rw [contents, hbears.preorder_tree, Term.contents]
  exact heach term.subterms fun inner hinner => hbears.holds.of_mem hinner

end Arena

/-! ## Normalization -/

namespace Normalization

open Term (node)

variable {ι : Type}

/-- A separator has no contents. -/
theorem contents_of_isSeparator {term : Term ι} (hkind : isSeparator term.kind = true) :
    term.contents = [] := by
  have hcontent : term.kind.isContent = false := by
    revert hkind
    generalize term.kind = kind
    revert kind
    decide
  rw [Term.contents_eq, Term.own_of_kind hcontent, Term.children, children_of_isSeparator hkind]
  rfl

theorem contents_of_sign {term : Term ι} {sign : Punctuation}
    (hkind : term.kind = .leaf (.mark (.punctuation sign))) : term.contents = [] := by
  obtain ⟨value, hform⟩ := Form.exists_of_kind_leaf hkind
  rw [Term.contents_of_leaf hform, Term.own_of_kind]
  rw [hkind]
  rfl

/-- A shallow node that plays the role of an expression is a grouping. -/
theorem own_of_expression {term : Term ι} (hshallow : term.Shallow)
    (hrole : term.form.hasRole .expression = true) : term.own = [] := by
  apply Term.own_of_kind
  rcases hshallow.leaf_or_group with ⟨kind, value, hform⟩ | ⟨heading, items, hform⟩
  · rw [hform] at hrole
    rcases kind with _ | _ | (_ | _) <;> cases hrole
  · rw [Term.kind, hform]
    rw [hform] at hrole
    cases heading with
    | provisional grouping => rfl
    | _ => cases hrole

/-- What normalization puts in a term's place has the term's contents. -/
theorem contents_offer {fresh : ι} {term : Term ι} (hshallow : term.Shallow) :
    (term.offer .normalization fresh).term.contents = term.contents := by
  cases offered fresh term with
  | unmatched hplan hoffer => rw [hoffer]
  | read hform hread hterm hgone hevents =>
      rw [hterm, Term.contents_of_leaf hform, Term.contents_of_leaf (Term.form_node _ _)]
      refine Term.own_congr (Term.label_node _ _) ?_
      rw [Term.kind_node, Term.kind, hform]
      rfl
  | lifted hsubject hchild hchildren hterm hgone hevents =>
      rw [hterm, Term.contents_eq term, own_of_expression hshallow hsubject]
      rcases hchildren with hchildren | ⟨opening, closing, hchildren, hopening, hclosing⟩
      · rw [hchildren, List.flatMap_singleton, List.nil_append]
      · simp only [hchildren, List.flatMap_cons, List.flatMap_nil, contents_of_sign hopening,
          contents_of_sign hclosing, List.nil_append, List.append_nil]
  | stripped hsubject hoffer =>
      obtain ⟨rule, subject, hoffer⟩ := hoffer
      rw [hoffer]

/-- Normalization keeps the contents of a shallow term, and their order. -/
theorem contents_normalize {fresh : ι} {term : Term ι} (hshallow : term.Shallow) :
    ((term.normalize fresh).gone = true → term.contents = []) ∧
      (term.normalize fresh).term.contents = term.contents := by
  -- Contents are a quantity that is summed up by appending.
  have hgroup (label : ι) (heading : Heading) : ∃ own, ∀ items : List (Term ι),
      FreeAddMonoid.ofList (node label (.group heading items)).contents =
        own + (items.map fun item => FreeAddMonoid.ofList item.contents).sum := by
    refine ⟨.ofList (node label (.group heading [])).own, fun items => ?_⟩
    have hitems : (items.map fun item => FreeAddMonoid.ofList item.contents).sum =
        .ofList (items.flatMap Term.contents) := by
      rw [List.flatMap_def, FreeAddMonoid.ofList_flatten, List.map_map]
      rfl
    rw [hitems, ← FreeAddMonoid.ofList_append]
    exact congrArg FreeAddMonoid.ofList (Term.contents_eq _)
  exact keeps_normalize (M := FreeAddMonoid (ι × Kind)) hgroup (fun _ => contents_of_isSeparator)
    (fun _ => contents_offer) hshallow

end Normalization

end AstPromotion
