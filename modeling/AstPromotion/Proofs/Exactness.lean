import AstPromotion.Proofs.Ownership
import AstPromotion.Proofs.Parsed
import AstPromotion.Proofs.Sketch.Choice

/-! # What an arena holds after reading

An arena that a text was read into holds the nodes of the program and nothing
else, although a reader by choices allocates nodes before it knows that it needs
them. The ids are the postorder of the tree, and every node but the root names
its only holder.
-/

namespace AstPromotion

/-- What a node of a planted sketch holds: the text of a token, or a group that knows the file. -/
def Form.Sketched {α : Type} (file : String) (form : Form α) : Prop :=
  (∃ token : Token, form = .leaf token.kind (.raw token.raw)) ∨
    ∃ (kind : GroupKind) (items : List α), form = .group (kind.heading file) items

theorem Form.sketched_map {α β : Type} {file : String} {f : α → β} {form : Form α} :
    (form.map f).Sketched file ↔ form.Sketched file := by
  refine or_congr (exists_congr fun token => Form.map_eq_leaf_iff) (exists_congr fun kind => ?_)
  constructor
  · rintro ⟨items, hform⟩
    obtain ⟨origins, horigins, -⟩ := Form.exists_of_map_eq_group hform
    exact ⟨origins, horigins⟩
  · rintro ⟨items, rfl⟩
    exact ⟨items.map f, rfl⟩

theorem Sketch.sketched_toTerm (file : String) (sketch : Sketch) :
    ∀ inner ∈ (sketch.toTerm file).subterms, inner.form.Sketched file := by
  induction sketch using induction with
  | leaf token =>
      exact Term.forall_subterms_iff.mpr ⟨.inl ⟨token, rfl⟩, fun _ hchild => nomatch hchild⟩
  | group kind items ih =>
      rw [toTerm_group]
      refine Term.forall_subterms_iff.mpr ⟨.inr ⟨kind, _, rfl⟩, ?_⟩
      intro child hchild
      obtain ⟨item, hitem, rfl⟩ := List.mem_map.mp hchild
      exact ih item hitem

namespace Arena

variable {arena : Arena} {root : Id} {file : String}

/-- What an arena is like that holds a program as it was read and nothing else. -/
structure Exact (arena : Arena) (root : Id) (file : String) : Prop where
  tree : arena.IsTree root
  reaches_iff : ∀ id, arena.Reaches root id ↔ id < arena.size
  postorder : (arena.tree root).postorder = List.range arena.size
  root_last : root + 1 = arena.size
  unheld : (arena.node root).parent = none
  held : ∀ id < arena.size, id ≠ root → ∃ holder, (arena.node id).parent = some holder ∧
    ∀ other, id ∈ arena.children other ↔ other = holder
  shallow : ∀ id construct, arena.kind id ≠ .construct construct
  raw : ∀ id kind value, arena.form id = .leaf kind value → ∃ text, value = .raw text
  untimed : ∀ id, (arena.node id).buildTime = none
  program : ∀ id name shouldExecute items,
    arena.form id = .group (.program name shouldExecute) items → name = file ∧ shouldExecute = true

variable {sketch : Sketch} {term : Term Id}

theorem reaches_iff_of_planted (hplanted : Planted {} [term] arena) (id : Id) :
    arena.Reaches term.label id ↔ id < arena.size := by
  have hmem : id ∈ [term].flatMap Term.labels ↔ _ := hplanted.mem_iff
  rw [List.flatMap_singleton] at hmem
  rw [(hplanted.bears term List.mem_cons_self).reaches_iff, hmem]
  exact and_iff_right (Nat.zero_le id)

theorem postorder_of_planted (hplanted : Planted {} [term] arena) :
    term.postorder = List.range arena.size := by
  have hpostorder := hplanted.postorder
  rw [List.flatMap_singleton] at hpostorder
  rw [hpostorder, List.range_eq_range']
  rfl

/-- The last id in postorder is that of the root. -/
theorem root_last_of_planted (hplanted : Planted {} [term] arena) :
    term.label + 1 = arena.size := by
  have hpostorder := postorder_of_planted hplanted
  cases hsize : arena.size with
  | zero =>
      have hlabel := hplanted.lt_size List.mem_cons_self term.label_mem_labels
      rw [hsize] at hlabel
      cases hlabel
  | succ last =>
      rw [Term.postorder_eq, hsize, List.range_succ] at hpostorder
      obtain ⟨-, hlast⟩ := List.append_inj' hpostorder rfl
      rw [List.singleton_inj.mp hlast]

/-- Also an id that was never handed out stands for a group. -/
theorem sketched_of_planted (hplanted : Planted {} [term] arena)
    (herase : term.erase = sketch.toTerm file) (id : Id) : (arena.form id).Sketched file := by
  have hbears := hplanted.bears term List.mem_cons_self
  by_cases hinside : id < arena.size
  · have hreaches := (reaches_iff_of_planted hplanted id).mpr hinside
    obtain ⟨inner, hinner, rfl⟩ := List.mem_map.mp (hbears.reaches_iff.mp hreaches)
    have herased : inner.erase ∈ (sketch.toTerm file).subterms := by
      rw [← herase, Term.erase, Term.subterms_map]
      exact List.mem_map_of_mem hinner
    have hsketched := sketch.sketched_toTerm file _ herased
    rw [Term.erase, Term.form_map, Form.sketched_map] at hsketched
    rw [(hbears.holds.of_mem hinner).form_eq]
    exact Form.sketched_map.mpr hsketched
  · refine .inr ⟨.block, [], ?_⟩
    rw [form, arena.node_of_size_le (Nat.le_of_not_lt hinside)]
    rfl

/-- A node below the root of a tree names the one node that holds it. -/
theorem Owned.exists_holder (howned : arena.Owned root)
    (hreaches_iff : ∀ id, arena.Reaches root id ↔ id < arena.size) {id : Id} (hid : id < arena.size)
    (hroot : id ≠ root) :
    ∃ holder, (arena.node id).parent = some holder ∧
      ∀ other, id ∈ arena.children other ↔ other = holder := by
  cases (hreaches_iff id).mpr hid with
  | root => exact absurd rfl hroot
  | @child holder _ hholder hchild =>
      refine ⟨holder, howned.linked holder hholder id hchild, fun other => ⟨?_, ?_⟩⟩
      · intro hother
        have hinside : other < arena.size := by
          by_contra hout
          rw [children, form, arena.node_of_size_le (Nat.le_of_not_lt hout)] at hother
          cases hother
        exact howned.holder_unique ((hreaches_iff other).mpr hinside) hholder hother hchild
      · rintro rfl
        exact hchild

/-- A sketch is all that is in an arena that it was planted in first. -/
theorem exact_of_plant (hplant : sketch.plant file {} = (root, arena)) : arena.Exact root file := by
  obtain ⟨term, hlabel, herase, hplanted⟩ := sketch.exists_planted file {}
  rw [hplant] at hlabel hplanted
  obtain rfl := hlabel
  have hbears := hplanted.bears term List.mem_cons_self
  have howned := owned_of_bears hbears (hplanted.linked term List.mem_cons_self)
  have hreaches := reaches_iff_of_planted hplanted
  have hsketched := sketched_of_planted hplanted herase
  exact {
    tree := hbears.isTree
    reaches_iff := hreaches
    postorder := by
      rw [hbears.tree_eq]
      exact postorder_of_planted hplanted
    root_last := root_last_of_planted hplanted
    unheld := hplanted.unheld term List.mem_cons_self
    held := fun _ => howned.exists_holder hreaches
    shallow := by
      intro id construct hkind
      rw [kind] at hkind
      rcases hsketched id with ⟨token, htoken⟩ | ⟨kind, items, hgroup⟩
      · rw [htoken] at hkind
        cases hkind
      · rw [hgroup] at hkind
        cases hkind
    raw := by
      intro id kind value hform
      rcases hsketched id with ⟨token, htoken⟩ | ⟨kind, items, hgroup⟩
      · rw [htoken] at hform
        cases hform
        exact ⟨token.raw, rfl⟩
      · rw [hgroup] at hform
        cases hform
    untimed := fun id => hplanted.untimed id (Nat.zero_le id)
    program := by
      intro id name shouldExecute items hform
      rcases hsketched id with ⟨token, htoken⟩ | ⟨kind, items, hgroup⟩
      · rw [htoken] at hform
        cases hform
      · rw [hgroup] at hform
        cases kind <;> cases hform
        exact ⟨rfl, rfl⟩ }

end Arena

/-- Reading leaves nothing behind. A reader that allocates every node it comes across, and gives up
groups whose items it has already allocated, reads a text into the arena that holds its sketch and
nothing else. -/
theorem exact_of_parseSource {file source : String} {root : Id} {arena : Arena}
    (hparse : parseSource file source = .ok (root, arena)) :
    Sketch.Choice.tree file source = (some root, arena) ∧ arena.Exact root file := by
  obtain ⟨sketch, -, hplant⟩ := exists_of_parseSource hparse
  exact ⟨Sketch.Choice.tree_eq_iff.mpr hparse, Arena.exact_of_plant hplant⟩

/-- A program inside a program, whose marks and texts look like groups. -/
def nestedPrograms : String :=
  "(Program (Program '(' \"(Let\") # (\n (Block))"

theorem exact_of_parseSource_nestedPrograms :
    ∃ root arena, parseSource "main" nestedPrograms = .ok (root, arena) ∧
      Sketch.Choice.tree "main" nestedPrograms = (some root, arena) ∧ arena.Exact root "main" ∧
        arena.size = 5 := by
  obtain ⟨root, arena, hparse, hsize⟩ :
      ∃ root arena, parseSource "main" nestedPrograms = .ok (root, arena) ∧ arena.size = 5 :=
    exists_of_any_parseSource (by decide +kernel)
  obtain ⟨htree, hexact⟩ := exact_of_parseSource hparse
  exact ⟨root, arena, hparse, htree, hexact, hsize⟩

/-- A text that is not accepted leaves nodes behind. -/
example :
    (Sketch.Choice.tree "main" "(Program (Let 1 2))").1 = none ∧
      (Sketch.Choice.tree "main" "(Program (Let 1 2))").2.size = 2 := by
  decide +kernel

end AstPromotion
