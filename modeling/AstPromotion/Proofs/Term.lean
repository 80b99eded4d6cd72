import AstPromotion.Fixpoint
import AstPromotion.Proofs.Form
import Mathlib.Data.List.Flatten
import Mathlib.Data.List.Nodup

/-! # Terms

A term is the tree below a node taken out of its arena: a label and a form over
terms. With ids for labels it keeps track of nodes; with no labels to speak of it
is the abstract tree.
-/

namespace AstPromotion

/-- A node with everything below it. -/
inductive Term (ι : Type)
  | node (label : ι) (form : Form (Term ι))

namespace Term

variable {ι κ : Type}

def label : Term ι → ι
  | node label _ => label

def form : Term ι → Form (Term ι)
  | node _ form => form

def kind (term : Term ι) : Kind :=
  term.form.kind

def children (term : Term ι) : List (Term ι) :=
  term.form.children

@[simp] theorem label_node (label : ι) (form : Form (Term ι)) : (node label form).label = label :=
  rfl

@[simp] theorem form_node (label : ι) (form : Form (Term ι)) : (node label form).form = form :=
  rfl

@[simp] theorem kind_node (label : ι) (form : Form (Term ι)) : (node label form).kind = form.kind :=
  rfl

@[simp] theorem children_node (label : ι) (form : Form (Term ι)) :
    (node label form).children = form.children :=
  rfl

@[simp] theorem node_eta (term : Term ι) : node term.label term.form = term := by
  cases term
  rfl

theorem sizeOf_lt_of_mem {term child : Term ι} (hchild : child ∈ term.children) :
    sizeOf child < sizeOf term := by
  cases term with
  | node label form =>
      have hform : sizeOf child < sizeOf form := Form.sizeOf_lt_of_mem_children hchild
      simp only [node.sizeOf_spec]
      omega

/-- What holds of a term as soon as it holds of its children holds of every term. -/
@[elab_as_elim]
theorem induction {motive : Term ι → Prop}
    (step : ∀ term : Term ι, (∀ child ∈ term.children, motive child) → motive term)
    (term : Term ι) : motive term :=
  step term fun child _ => induction step child
termination_by term
decreasing_by exact sizeOf_lt_of_mem ‹_›

/-- The term and the terms below it, each before those below it. -/
def subterms (term : Term ι) : List (Term ι) :=
  term :: term.children.attach.flatMap fun child => subterms child.1
termination_by term
decreasing_by exact sizeOf_lt_of_mem child.2

theorem subterms_eq (term : Term ι) :
    term.subterms = term :: term.children.flatMap subterms := by
  rw [subterms, List.flatMap_def, List.flatMap_def, List.attach_map_val]

@[simp] theorem mem_subterms_self (term : Term ι) : term ∈ term.subterms := by
  rw [subterms_eq]
  exact List.mem_cons_self

theorem mem_subterms_iff {term other : Term ι} :
    other ∈ term.subterms ↔ other = term ∨ ∃ child ∈ term.children, other ∈ child.subterms := by
  rw [subterms_eq, List.mem_cons, List.mem_flatMap]

theorem mem_subterms_of_mem_children {term child other : Term ι} (hchild : child ∈ term.children)
    (hother : other ∈ child.subterms) : other ∈ term.subterms :=
  mem_subterms_iff.mpr (Or.inr ⟨child, hchild, hother⟩)

theorem mem_subterms_trans {term middle inner : Term ι} (hmiddle : middle ∈ term.subterms)
    (hinner : inner ∈ middle.subterms) : inner ∈ term.subterms := by
  induction term using induction with
  | step term ih =>
      rcases mem_subterms_iff.mp hmiddle with rfl | ⟨child, hchild, hmem⟩
      · exact hinner
      · exact mem_subterms_of_mem_children hchild (ih child hchild hmem)

/-- Subterms are closed under taking children. -/
theorem mem_subterms_of_child_of_mem {term inner child : Term ι} (hinner : inner ∈ term.subterms)
    (hchild : child ∈ inner.children) : child ∈ term.subterms :=
  mem_subterms_trans hinner (mem_subterms_of_mem_children hchild (mem_subterms_self child))

/-- A property of all subterms is one of the term itself and of all subterms of its children. -/
theorem forall_subterms_iff {property : Term ι → Prop} {term : Term ι} :
    (∀ other ∈ term.subterms, property other) ↔
      property term ∧ ∀ child ∈ term.children, ∀ other ∈ child.subterms, property other := by
  constructor
  · intro h
    refine ⟨h term (mem_subterms_self term), ?_⟩
    intro child hchild other hother
    exact h other (mem_subterms_of_mem_children hchild hother)
  · rintro ⟨hterm, hchildren⟩ other hother
    rcases mem_subterms_iff.mp hother with rfl | ⟨child, hchild, hmem⟩
    · exact hterm
    · exact hchildren child hchild other hmem

/-! ## Labels -/

/-- The labels of a term, from the root on and from left to right. -/
def labels (term : Term ι) : List ι :=
  term.subterms.map label

theorem labels_eq (term : Term ι) : term.labels = term.label :: term.children.flatMap labels := by
  rw [labels, subterms_eq, List.map_cons, List.map_flatMap]
  rfl

theorem label_mem_labels (term : Term ι) : term.label ∈ term.labels := by
  rw [labels_eq]
  exact List.mem_cons_self

theorem mem_labels_of_mem_children {term child : Term ι} {label : ι}
    (hchild : child ∈ term.children) (hlabel : label ∈ child.labels) : label ∈ term.labels := by
  rw [labels_eq]
  exact List.mem_cons_of_mem _ (List.mem_flatMap.mpr ⟨child, hchild, hlabel⟩)

theorem labels_sublist_of_mem_children {term child : Term ι} (hchild : child ∈ term.children) :
    child.labels.Sublist term.labels := by
  have hflat := (List.singleton_sublist.mpr hchild).flatMap labels
  rw [List.flatMap_singleton] at hflat
  rw [labels_eq term]
  exact hflat.cons _

/-- There are fewer nodes below a node than from it on. -/
theorem length_labels_lt_of_mem_children {term child : Term ι} (hchild : child ∈ term.children) :
    child.labels.length < term.labels.length := by
  have hflat := (List.singleton_sublist.mpr hchild).flatMap labels
  rw [List.flatMap_singleton] at hflat
  rw [labels_eq term, List.length_cons]
  exact Nat.lt_succ_of_le hflat.length_le

theorem labels_sublist_of_mem_subterms {term inner : Term ι} (hinner : inner ∈ term.subterms) :
    inner.labels.Sublist term.labels := by
  induction term using induction with
  | step term ih =>
      rcases mem_subterms_iff.mp hinner with rfl | ⟨child, hchild, hmem⟩
      · exact List.Sublist.refl _
      · exact (ih child hchild hmem).trans (labels_sublist_of_mem_children hchild)

theorem labels_subset_of_mem_subterms {term inner : Term ι} (hinner : inner ∈ term.subterms) :
    inner.labels ⊆ term.labels :=
  (labels_sublist_of_mem_subterms hinner).subset

/-- The tree of the labels of a term. -/
def skeleton (term : Term ι) : Tree ι :=
  .node term.label (term.children.attach.map fun child => skeleton child.1)
termination_by term
decreasing_by exact sizeOf_lt_of_mem child.2

theorem skeleton_eq (term : Term ι) :
    term.skeleton = .node term.label (term.children.map skeleton) := by
  rw [skeleton, List.attach_map_val]

theorem preorder_skeleton (term : Term ι) : term.skeleton.preorder = term.labels := by
  induction term using induction with
  | step term ih =>
      rw [skeleton_eq, Tree.preorder_node, labels_eq, List.flatMap_map]
      congr 1
      exact List.flatMap_congr ih

/-- Terms that share no label are told apart by any label of theirs. -/
theorem eq_of_mem_labels {terms : List (Term ι)} (hnodup : (terms.flatMap labels).Nodup)
    {first second : Term ι} (hfirst : first ∈ terms) (hsecond : second ∈ terms) {label : ι}
    (hlabel : label ∈ first.labels) (hlabel' : label ∈ second.labels) : first = second := by
  induction terms with
  | nil => nomatch hfirst
  | cons term rest ih =>
      rw [List.flatMap_cons] at hnodup
      have hout {other : Term ι} (hother : other ∈ rest) (hterm : label ∈ term.labels) :
          label ∉ other.labels := fun hmem =>
        List.disjoint_of_nodup_append hnodup hterm (List.mem_flatMap.mpr ⟨other, hother, hmem⟩)
      rcases List.mem_cons.mp hfirst with rfl | hfirst'
      · rcases List.mem_cons.mp hsecond with rfl | hsecond'
        · rfl
        · exact absurd hlabel' (hout hsecond' hlabel)
      · rcases List.mem_cons.mp hsecond with rfl | hsecond'
        · exact absurd hlabel (hout hfirst' hlabel')
        · exact ih (List.Nodup.of_append_right hnodup) hfirst' hsecond'

/-- A node below a term is not the root of that term or of one beside it. -/
theorem not_mem_map_label {terms : List (Term ι)} (hnodup : (terms.flatMap labels).Nodup)
    {term child : Term ι} (hterm : term ∈ terms) (hchild : child ∈ term.children) {below : ι}
    (hbelow : below ∈ child.labels) : below ∉ terms.map label := by
  intro hmem
  obtain ⟨other, hother, rfl⟩ := List.mem_map.mp hmem
  obtain rfl := eq_of_mem_labels hnodup hother hterm other.label_mem_labels
    (mem_labels_of_mem_children hchild hbelow)
  have hother_nodup := (List.nodup_flatMap.mp hnodup).1 other hother
  rw [labels_eq, List.nodup_cons] at hother_nodup
  exact hother_nodup.1 (List.mem_flatMap.mpr ⟨child, hchild, hbelow⟩)

/-! ## Relabelling -/

/-- The term with every label changed. -/
def map (f : ι → κ) (term : Term ι) : Term κ :=
  node (f term.label) (term.form.attach.map fun child => map f child.1)
termination_by term
decreasing_by exact sizeOf_lt_of_mem child.2

theorem map_eq (f : ι → κ) (term : Term ι) :
    term.map f = node (f term.label) (term.form.map (map f)) := by
  rw [map]
  exact congrArg (node (f term.label)) (Form.map_attach (map f) term.form)

@[simp] theorem label_map (f : ι → κ) (term : Term ι) : (term.map f).label = f term.label := by
  rw [map_eq, label_node]

@[simp] theorem form_map (f : ι → κ) (term : Term ι) :
    (term.map f).form = term.form.map (map f) := by
  rw [map_eq, form_node]

@[simp] theorem kind_map (f : ι → κ) (term : Term ι) : (term.map f).kind = term.kind := by
  rw [kind, form_map, Form.kind_map, kind]

@[simp] theorem children_map (f : ι → κ) (term : Term ι) :
    (term.map f).children = term.children.map (map f) := by
  rw [children, form_map, Form.children_map, children]

/-- The abstract tree: a term without labels to speak of. -/
def erase (term : Term ι) : Term Unit :=
  term.map fun _ => ()

theorem subterms_map (f : ι → κ) (term : Term ι) :
    (term.map f).subterms = term.subterms.map (map f) := by
  induction term using induction with
  | step term ih =>
      rw [subterms_eq, subterms_eq, List.map_cons, List.map_flatMap, children_map, List.flatMap_map]
      congr 1
      exact List.flatMap_congr ih

@[simp] theorem labels_map (f : ι → κ) (term : Term ι) :
    (term.map f).labels = term.labels.map f := by
  rw [labels, subterms_map, labels, List.map_map, List.map_map]
  congr 1
  funext other
  exact label_map f other

end Term

end AstPromotion
