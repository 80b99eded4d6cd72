import AstPromotion.Proofs.Term
import Mathlib.Data.List.Perm.Subperm

/-! # Arenas that bear terms

An arena bears a term when its nodes spell the term out, each node once. Writing
to nodes outside a term leaves the term as it is, so whatever happens elsewhere
in the arena may be ignored.
-/

namespace AstPromotion

namespace Arena

variable (arena : Arena)

/-! ## Reading after writing -/

theorem node_of_size_le {id : Id} (hid : arena.size ≤ id) : arena.node id = default := by
  rw [node, Array.getD_eq_getD_getElem?, Array.getElem?_eq_none hid, Option.getD_none]

theorem node_setForm {id : Id} (hid : id < arena.size) (form : Form Id) (other : Id) :
    (arena.setForm id form).node other =
      if other = id then { arena.node other with form } else arena.node other := by
  rw [setForm, node_modify]
  by_cases heq : other = id
  · subst heq
    rw [if_pos ⟨rfl, hid⟩, if_pos rfl]
  · rw [if_neg heq, if_neg fun h => heq h.1.symm]

@[simp] theorem size_setForm (id : Id) (form : Form Id) : (arena.setForm id form).size = arena.size :=
  arena.size_modify id _

theorem node_setParent {id : Id} (hid : id < arena.size) (parent : Option Id) (other : Id) :
    (arena.setParent id parent).node other =
      if other = id then { arena.node other with parent } else arena.node other := by
  rw [setParent, node_modify]
  by_cases heq : other = id
  · subst heq
    rw [if_pos ⟨rfl, hid⟩, if_pos rfl]
  · rw [if_neg heq, if_neg fun h => heq h.1.symm]

@[simp] theorem size_setParent (id : Id) (parent : Option Id) :
    (arena.setParent id parent).size = arena.size :=
  arena.size_modify id _

theorem node_setBuildTime {id : Id} (hid : id < arena.size) (nanoseconds : Nat) (other : Id) :
    (arena.setBuildTime id nanoseconds).node other =
      if other = id then { arena.node other with buildTime := some nanoseconds }
      else arena.node other := by
  rw [setBuildTime, node_modify]
  by_cases heq : other = id
  · subst heq
    rw [if_pos ⟨rfl, hid⟩, if_pos rfl]
  · rw [if_neg heq, if_neg fun h => heq h.1.symm]

@[simp] theorem size_setBuildTime (id : Id) (nanoseconds : Nat) :
    (arena.setBuildTime id nanoseconds).size = arena.size :=
  arena.size_modify id _

/-- Adoption gives the children of a node, and no other node, a parent. -/
theorem node_adopt_of_lt (holder : Id) {other : Id} (hother : other < arena.size) :
    (arena.adopt holder).node other =
      if other ∈ arena.children holder then { arena.node other with parent := some holder }
      else arena.node other := by
  have heach (children : List Id) (start : Arena) (hinside : other < start.size) :
      (children.foldl (fun arena child => arena.setParent child (some holder)) start).node other =
        if other ∈ children then { start.node other with parent := some holder }
        else start.node other := by
    induction children generalizing start with
    | nil => rfl
    | cons child rest ih =>
        rw [List.foldl_cons, ih _ (by rwa [size_setParent]), setParent, node_modify]
        by_cases heq : other = child
        · subst heq
          simp [hinside]
        · by_cases hrest : other ∈ rest <;> simp [heq, Ne.symm heq, hrest]
  exact heach _ arena hother

theorem node_adopt {holder : Id} (hchildren : ∀ child ∈ arena.children holder, child < arena.size)
    (other : Id) :
    (arena.adopt holder).node other =
      if other ∈ arena.children holder then { arena.node other with parent := some holder }
      else arena.node other := by
  rcases Nat.lt_or_ge other arena.size with hinside | houtside
  · exact arena.node_adopt_of_lt holder hinside
  · rw [if_neg fun hmem => absurd (hchildren other hmem) (Nat.not_lt_of_le houtside),
      node_of_size_le _ houtside, node_of_size_le _ (by rwa [size_adopt])]

theorem node_adopt_of_not_mem {holder other : Id}
    (hchildren : ∀ child ∈ arena.children holder, child < arena.size)
    (hother : other ∉ arena.children holder) :
    (arena.adopt holder).node other = arena.node other := by
  rw [node_adopt arena hchildren, if_neg hother]

theorem buildTime_adopt {holder : Id}
    (hchildren : ∀ child ∈ arena.children holder, child < arena.size) (other : Id) :
    ((arena.adopt holder).node other).buildTime = (arena.node other).buildTime := by
  rw [node_adopt arena hchildren]
  split <;> rfl

/-! ## Bearing a term -/

/-- Every node of the term is in the arena under its label. -/
def Holds (term : Term Id) : Prop :=
  ∀ inner ∈ term.subterms, arena.form inner.label = inner.form.map Term.label

/-- Every child of a node of the term names that node as its parent. -/
def Linked (term : Term Id) : Prop :=
  ∀ inner ∈ term.subterms, ∀ child ∈ inner.children,
    (arena.node child.label).parent = some inner.label

/-- The arena holds the term, no node of which occurs twice. -/
structure Bears (term : Term Id) : Prop where
  holds : arena.Holds term
  nodup : term.labels.Nodup
  inside : ∀ id ∈ term.labels, id < arena.size

variable {arena}

theorem Holds.form_eq {term : Term Id} (hholds : arena.Holds term) :
    arena.form term.label = term.form.map Term.label :=
  hholds term term.mem_subterms_self

theorem Holds.children_eq {term : Term Id} (hholds : arena.Holds term) :
    arena.children term.label = term.children.map Term.label := by
  rw [children, hholds.form_eq, Form.children_map, Term.children]

theorem Holds.kind_eq {term : Term Id} (hholds : arena.Holds term) :
    arena.kind term.label = term.kind := by
  rw [kind, hholds.form_eq, Form.kind_map, Term.kind]

theorem Holds.of_mem {term inner : Term Id} (hholds : arena.Holds term)
    (hinner : inner ∈ term.subterms) : arena.Holds inner :=
  fun other hother => hholds other (Term.mem_subterms_trans hinner hother)

theorem holds_iff {term : Term Id} :
    arena.Holds term ↔ arena.form term.label = term.form.map Term.label ∧
      ∀ child ∈ term.children, arena.Holds child :=
  Term.forall_subterms_iff

theorem Holds.congr {other : Arena} {term : Term Id} (hholds : arena.Holds term)
    (hform : ∀ id ∈ term.labels, other.form id = arena.form id) : other.Holds term := by
  intro inner hinner
  rw [hform inner.label (List.mem_map_of_mem hinner), hholds inner hinner]

theorem linked_iff {term : Term Id} :
    arena.Linked term ↔
      (∀ child ∈ term.children, (arena.node child.label).parent = some term.label) ∧
        ∀ child ∈ term.children, arena.Linked child :=
  Term.forall_subterms_iff

theorem Linked.of_mem {term inner : Term Id} (hlinked : arena.Linked term)
    (hinner : inner ∈ term.subterms) : arena.Linked inner :=
  fun other hother => hlinked other (Term.mem_subterms_trans hinner hother)

/-- Links stay if the nodes below the root keep their parents. -/
theorem Linked.congr {other : Arena} {term : Term Id} (hlinked : arena.Linked term)
    (hparent : ∀ child ∈ term.children, ∀ id ∈ child.labels,
      (other.node id).parent = (arena.node id).parent) : other.Linked term := by
  induction term using Term.induction with
  | step term ih =>
      obtain ⟨hroot, hbelow⟩ := linked_iff.mp hlinked
      refine linked_iff.mpr ⟨?_, ?_⟩
      · intro child hchild
        rw [hparent child hchild child.label child.label_mem_labels, hroot child hchild]
      · intro child hchild
        apply ih child hchild (hbelow child hchild)
        intro grandchild hgrandchild id hid
        exact hparent child hchild id (Term.mem_labels_of_mem_children hgrandchild hid)

namespace Bears

theorem root_inside {term : Term Id} (hbears : arena.Bears term) : term.label < arena.size :=
  hbears.inside _ term.label_mem_labels

theorem of_mem_children {term child : Term Id} (hbears : arena.Bears term)
    (hchild : child ∈ term.children) : arena.Bears child where
  holds := (holds_iff.mp hbears.holds).2 child hchild
  nodup := by
    have hnodup := hbears.nodup
    rw [Term.labels_eq, List.nodup_cons] at hnodup
    exact (List.nodup_flatMap.mp hnodup.2).1 child hchild
  inside id hid := hbears.inside id (Term.mem_labels_of_mem_children hchild hid)

theorem of_mem {term inner : Term Id} (hbears : arena.Bears term) (hinner : inner ∈ term.subterms) :
    arena.Bears inner where
  holds := hbears.holds.of_mem hinner
  nodup := (Term.labels_sublist_of_mem_subterms hinner).nodup hbears.nodup
  inside id hid := hbears.inside id (Term.labels_subset_of_mem_subterms hinner hid)

theorem children_nodup {term : Term Id} (hbears : arena.Bears term) :
    (term.children.flatMap Term.labels).Nodup := by
  have hnodup := hbears.nodup
  rw [Term.labels_eq, List.nodup_cons] at hnodup
  exact hnodup.2

theorem label_not_mem {term child : Term Id} (hbears : arena.Bears term)
    (hchild : child ∈ term.children) : term.label ∉ child.labels := by
  have hnodup := hbears.nodup
  rw [Term.labels_eq, List.nodup_cons] at hnodup
  exact fun hmem => hnodup.1 (List.mem_flatMap.mpr ⟨child, hchild, hmem⟩)

theorem children_inside {term : Term Id} (hbears : arena.Bears term) :
    ∀ child ∈ arena.children term.label, child < arena.size := by
  intro id hid
  rw [hbears.holds.children_eq] at hid
  obtain ⟨child, hchild, rfl⟩ := List.mem_map.mp hid
  exact hbears.inside _ (Term.mem_labels_of_mem_children hchild child.label_mem_labels)

/-- A term is still borne after changes that leave the forms of its nodes alone. -/
theorem congr {other : Arena} {term : Term Id} (hbears : arena.Bears term)
    (hform : ∀ id ∈ term.labels, other.form id = arena.form id) (hsize : arena.size ≤ other.size) :
    other.Bears term where
  holds := hbears.holds.congr hform
  nodup := hbears.nodup
  inside id hid := Nat.lt_of_lt_of_le (hbears.inside id hid) hsize

/-- A borne term has no more nodes than the arena. -/
theorem length_le {term : Term Id} (hbears : arena.Bears term) :
    term.labels.length ≤ arena.size := by
  have hsubset : term.labels ⊆ List.range arena.size :=
    fun id hid => List.mem_range.mpr (hbears.inside id hid)
  simpa using (List.subperm_of_subset hbears.nodup hsubset).length_le

end Bears

end Arena

end AstPromotion
