import AstPromotion.Proofs.Transition

/-! # Building a construct

A construct takes over subtrees of the grouping it replaces, none of them twice.
The class literal is the one that edits another node: its body gives up the
statement that holds the constructor.
-/

namespace AstPromotion

namespace Term

theorem labels_withItems {body : Term Id} {heading : Heading} {items : List (Term Id)}
    (hbody : body.form = .group heading items) (others : List (Term Id)) :
    (body.withItems others).labels = body.label :: others.flatMap labels := by
  rw [labels_eq, withItems, label_node, children_node, hbody]
  rfl

/-- The labels of a constructor are among those of the statement that holds it. -/
theorem labels_sublist_of_constructorOf? {statement function : Term Id}
    (hfound : constructorOf? form statement = some function) :
    function.labels.Sublist statement.labels := by
  rcases (Promotion.eq_or_eq_of_constructorOf? hfound).1 with rfl | hform
  · exact List.Sublist.refl _
  · rw [labels_eq statement, children, hform]
    simp [Form.children]

theorem mem_subterms_of_takeConstructor? {body function : Term Id} {heading : Heading}
    {items others : List (Term Id)} (hbody : body.form = .group heading items)
    (htaken : takeConstructor? form items = some (function, others)) :
    function ∈ body.subterms := by
  obtain ⟨before, statement, after, rfl, -, hfound, -⟩ :=
    Promotion.exists_of_takeConstructor? htaken
  have hstatement : statement ∈ body.children := by
    rw [children, hbody]
    exact List.mem_append_right _ List.mem_cons_self
  apply mem_subterms_of_mem_children hstatement
  rcases (Promotion.eq_or_eq_of_constructorOf? hfound).1 with rfl | hform
  · exact mem_subterms_self _
  · refine mem_subterms_of_mem_children ?_ (mem_subterms_self _)
    rw [children, hform]
    exact List.mem_cons_self

theorem mem_children_of_takeConstructor? {body function : Term Id} {heading : Heading}
    {items others : List (Term Id)} (hbody : body.form = .group heading items)
    (htaken : takeConstructor? form items = some (function, others)) :
    ∀ other ∈ others, other ∈ body.children := by
  obtain ⟨before, statement, after, rfl, rfl, -⟩ := Promotion.exists_of_takeConstructor? htaken
  intro other hother
  rw [children, hbody]
  rcases List.mem_append.mp hother with hother | hother
  · exact List.mem_append_left _ hother
  · exact List.mem_append_right _ (List.mem_cons_of_mem _ hother)

/-- The node of a construct's field is one of the nodes below the grouping, and no field shares a
node with another. -/
theorem count_labels_le_of_fields {term : Term Id} {built : Form (Term Id)}
    {relisted : Option (Term Id × List (Term Id))}
    (hfields : Promotion.Fields form term built relisted) (id : Id) :
    ((relist relisted built).children.flatMap labels).count id ≤
      (term.children.flatMap labels).count id := by
  cases hfields with
  | own hfields => exact (hfields.flatMap labels).count_le id
  | @opened target mark value callee arguments hchildren htarget =>
      have htarget_labels : target.labels = target.label :: (callee.labels ++ arguments.labels) := by
        rw [labels_eq, children, htarget]
        simp [Form.children]
      have hterm : term.children = [target, mark, value] := hchildren
      have hbuilt : (relist none (.arrayIndexWrite callee arguments value)).children =
          [callee, arguments, value] := rfl
      simp only [hterm, hbuilt, htarget_labels, List.flatMap_cons, List.flatMap_nil,
        List.count_append, List.count_cons, List.count_nil]
      omega
  | @extracted word name opening body closing function items others hchildren hbody htaken =>
      obtain ⟨before, statement, after, rfl, rfl, hfound, -⟩ :=
        Promotion.exists_of_takeConstructor? htaken
      have hstatement := (labels_sublist_of_constructorOf? hfound).count_le id
      have hbody_labels : body.labels =
          body.label :: (before ++ statement :: after).flatMap labels := by
        rw [labels_eq, children, hbody]
        rfl
      have hterm : term.children = [word, name, opening, body, closing] := hchildren
      have hbuilt : (relist (some (body, before ++ after))
          (.classLiteral name (some function) body)).children =
            [name, function, body.withItems (before ++ after)] := rfl
      simp only [hterm, hbuilt, hbody_labels, labels_withItems hbody, List.flatMap_cons,
        List.flatMap_nil, List.flatMap_append, List.count_append, List.count_cons, List.count_nil]
      omega

theorem map_label_relist {term : Term Id} {built : Form (Term Id)}
    {relisted : Option (Term Id × List (Term Id))}
    (hfields : Promotion.Fields form term built relisted) :
    (relist relisted built).map label = built.map label := by
  cases hfields <;> rfl

end Term

namespace Arena

variable {arena : Arena} {term : Term Id}

/-- The arena once the group that gives up a child, if there is one, has its new list. -/
def relist (arena : Arena) : Option (Term Id × List (Term Id)) → Arena
  | some (group, items) =>
    arena.setForm group.label
      ((arena.form group.label).mapItems fun _ => items.map Term.label)
  | none => arena

/-- What is known of the fields of a construct before it is allocated. -/
structure Gathered (arena : Arena) (term : Term Id) (fields : List (Term Id)) (after : Arena) :
    Prop where
  holds : ∀ field ∈ fields, after.Holds field
  nodup : (fields.flatMap Term.labels).Nodup
  inside : ∀ field ∈ fields, ∀ id ∈ field.labels, id ∈ term.labels
  size_eq : after.size = arena.size
  frame : ∀ id, id ∉ term.labels → after.node id = arena.node id
  kind : ∀ id, after.kind id = arena.kind id
  buildTime : ∀ id, (after.node id).buildTime = (arena.node id).buildTime
  linked : arena.Linked term → ∀ field ∈ fields, after.Linked field

/-- Fields that are below the grouping as they are need no change to the arena. -/
theorem gathered_of_subterms (hbears : arena.Bears term) {fields : List (Term Id)}
    (hnodup : (fields.flatMap Term.labels).Nodup) (hfields : ∀ field ∈ fields, field ∈ term.subterms) :
    Gathered arena term fields arena where
  holds field hfield := hbears.holds.of_mem (hfields field hfield)
  nodup := hnodup
  inside field hfield _ hid := Term.labels_subset_of_mem_subterms (hfields field hfield) hid
  size_eq := rfl
  frame _ _ := rfl
  kind _ := rfl
  buildTime _ := rfl
  linked hlinked field hfield := hlinked.of_mem (hfields field hfield)

/-! ### A group that gives up a child -/

section Relist

variable {body : Term Id} {heading : Heading} {items others : List (Term Id)}

/-- Only the form of the group changes. -/
theorem node_relist (hbears : arena.Bears body) (others : List (Term Id)) (id : Id) :
    (arena.relist (some (body, others))).node id =
      if id = body.label then
        { arena.node id with
          form := (arena.form body.label).mapItems fun _ => others.map Term.label }
      else arena.node id :=
  node_setForm arena hbears.root_inside _ id

theorem parent_relist (hbears : arena.Bears body) (others : List (Term Id)) (id : Id) :
    ((arena.relist (some (body, others))).node id).parent = (arena.node id).parent := by
  rw [node_relist hbears]
  split <;> rfl

theorem form_relist_of_ne (hbears : arena.Bears body) (others : List (Term Id)) {id : Id}
    (hid : id ≠ body.label) : (arena.relist (some (body, others))).form id = arena.form id := by
  rw [form, node_relist hbears, if_neg hid, form]

theorem form_relist_label (hbears : arena.Bears body) (hbody : body.form = .group heading items) :
    (arena.relist (some (body, others))).form body.label =
      (body.withItems others).form.map Term.label := by
  rw [form, node_relist hbears, if_pos rfl]
  simp only [hbears.holds.form_eq, Term.withItems, Term.form_node, hbody]
  rfl

theorem kind_relist (hbears : arena.Bears body) (hbody : body.form = .group heading items) (id : Id) :
    (arena.relist (some (body, others))).kind id = arena.kind id := by
  by_cases hid : id = body.label
  · rw [hid, kind, form_relist_label hbears hbody, Term.withItems, Term.form_node, Form.kind_map,
      hbody, hbears.holds.kind_eq, Term.kind, hbody]
    rfl
  · rw [kind, form_relist_of_ne hbears others hid, kind]

/-- Terms that the group is not part of are held as before. -/
theorem Holds.relist (hbears : arena.Bears body) (others : List (Term Id)) {inner : Term Id}
    (hholds : arena.Holds inner) (hout : body.label ∉ inner.labels) :
    (arena.relist (some (body, others))).Holds inner := by
  apply hholds.congr
  intro id hid
  apply form_relist_of_ne hbears
  rintro rfl
  exact hout hid

theorem holds_withItems (hbears : arena.Bears body) (hbody : body.form = .group heading items)
    (hothers : ∀ other ∈ others, other ∈ body.children) :
    (arena.relist (some (body, others))).Holds (body.withItems others) := by
  refine holds_iff.mpr ⟨form_relist_label hbears hbody, ?_⟩
  intro other hother
  rw [Term.withItems, Term.children_node, hbody] at hother
  have hmem := hothers other hother
  exact (hbears.of_mem_children hmem).holds.relist hbears others (hbears.label_not_mem hmem)

/-- No parent changes, so what was linked stays linked. -/
theorem Linked.relist (hbears : arena.Bears body) (others : List (Term Id)) {inner : Term Id}
    (hlinked : arena.Linked inner) : (arena.relist (some (body, others))).Linked inner :=
  hlinked.congr fun _ _ id _ => parent_relist hbears others id

theorem linked_withItems (hbears : arena.Bears body) (hlinked : arena.Linked body)
    (hbody : body.form = .group heading items) (hothers : ∀ other ∈ others, other ∈ body.children) :
    (arena.relist (some (body, others))).Linked (body.withItems others) := by
  obtain ⟨hparent, hbelow⟩ := linked_iff.mp hlinked
  have hchildren : (body.withItems others).children = others := by
    rw [Term.withItems, Term.children_node, hbody]
    rfl
  refine linked_iff.mpr ⟨?_, ?_⟩
  · intro other hother
    rw [hchildren] at hother
    rw [parent_relist hbears]
    exact hparent other (hothers other hother)
  · intro other hother
    rw [hchildren] at hother
    exact (hbelow other (hothers other hother)).relist hbears others

end Relist

/-- The constructor, and what is left of the body once it has given up the statement that holds
the constructor. -/
theorem gathered_of_extracted (hbears : arena.Bears term)
    {word name opening body closing function : Term Id} {items others : List (Term Id)}
    (hchildren : term.form.children = [word, name, opening, body, closing])
    (hbody : body.form = .group .block items)
    (htaken : takeConstructor? Term.form items = some (function, others))
    (hnodup : ([name, function, body.withItems others].flatMap Term.labels).Nodup) :
    Gathered arena term [name, function, body.withItems others]
      (arena.relist (some (body, others))) := by
  have hname_mem : name ∈ term.children := by
    rw [Term.children, hchildren]
    simp
  have hbody_mem : body ∈ term.children := by
    rw [Term.children, hchildren]
    simp
  have hbody_bears : arena.Bears body := hbears.of_mem_children hbody_mem
  have hothers_mem := Term.mem_children_of_takeConstructor? hbody htaken
  have hfunction_sub : function ∈ term.subterms :=
    Term.mem_subterms_of_mem_children hbody_mem (Term.mem_subterms_of_takeConstructor? hbody htaken)
  have hlabels := Term.labels_withItems hbody others
  -- The body is none of the other fields and not part of one.
  have hbody_out := hnodup
  simp only [List.flatMap_cons, List.flatMap_nil, List.append_nil, hlabels] at hbody_out
  have hname_out : body.label ∉ name.labels := by
    intro hmem
    exact (List.disjoint_of_nodup_append hbody_out) hmem (by simp)
  have hfunction_out : body.label ∉ function.labels := by
    intro hmem
    exact (List.disjoint_of_nodup_append (List.Nodup.of_append_right hbody_out)) hmem (by simp)
  exact {
    holds := by
      intro field hfield
      simp only [List.mem_cons, List.not_mem_nil, or_false] at hfield
      rcases hfield with rfl | rfl | rfl
      · exact (hbears.of_mem_children hname_mem).holds.relist hbody_bears others hname_out
      · exact (hbears.holds.of_mem hfunction_sub).relist hbody_bears others hfunction_out
      · exact holds_withItems hbody_bears hbody hothers_mem
    nodup := hnodup
    inside := by
      intro field hfield id hid
      simp only [List.mem_cons, List.not_mem_nil, or_false] at hfield
      rcases hfield with rfl | rfl | rfl
      · exact Term.mem_labels_of_mem_children hname_mem hid
      · exact Term.labels_subset_of_mem_subterms hfunction_sub hid
      · refine Term.mem_labels_of_mem_children hbody_mem ?_
        rw [hlabels, List.mem_cons, List.mem_flatMap] at hid
        rcases hid with rfl | ⟨other, hother, hid⟩
        · exact body.label_mem_labels
        · exact Term.mem_labels_of_mem_children (hothers_mem other hother) hid
    size_eq := size_setForm arena _ _
    frame := by
      intro id hout
      rw [node_relist hbody_bears, if_neg]
      rintro rfl
      exact hout (Term.mem_labels_of_mem_children hbody_mem body.label_mem_labels)
    kind := kind_relist hbody_bears hbody
    buildTime := by
      intro id
      rw [node_relist hbody_bears]
      split <;> rfl
    linked := by
      intro hlinked field hfield
      simp only [List.mem_cons, List.not_mem_nil, or_false] at hfield
      have hbelow := (linked_iff.mp hlinked).2
      rcases hfield with rfl | rfl | rfl
      · exact (hbelow _ hname_mem).relist hbody_bears others
      · exact (hlinked.of_mem hfunction_sub).relist hbody_bears others
      · exact linked_withItems hbody_bears (hbelow _ hbody_mem) hbody hothers_mem }

theorem gathered_of_fields (hbears : arena.Bears term) {built : Form (Term Id)}
    {relisted : Option (Term Id × List (Term Id))}
    (hfields : Promotion.Fields Term.form term built relisted) :
    Gathered arena term (Term.relist relisted built).children (arena.relist relisted) := by
  -- No id stands in the fields more often than below the grouping.
  have hcount := Term.count_labels_le_of_fields hfields
  have hnodup : ((Term.relist relisted built).children.flatMap Term.labels).Nodup := by
    rw [List.nodup_iff_count]
    intro id
    exact Nat.le_trans (hcount id) (List.nodup_iff_count.mp hbears.children_nodup id)
  cases hfields with
  | own hfields =>
      apply gathered_of_subterms hbears hnodup
      intro field hfield
      exact Term.mem_subterms_of_mem_children (hfields.subset hfield) (Term.mem_subterms_self _)
  | opened hchildren htarget =>
      apply gathered_of_subterms hbears hnodup
      intro field hfield
      simp only [Term.relist, Form.children, List.mem_cons, List.not_mem_nil, or_false] at hfield
      have htarget_mem : _ ∈ term.children := hchildren ▸ List.mem_cons_self
      rcases hfield with rfl | rfl | rfl
      · refine Term.mem_subterms_of_mem_children htarget_mem ?_
        refine Term.mem_subterms_of_mem_children ?_ (Term.mem_subterms_self _)
        simp [Term.children, htarget, Form.children]
      · refine Term.mem_subterms_of_mem_children htarget_mem ?_
        refine Term.mem_subterms_of_mem_children ?_ (Term.mem_subterms_self _)
        simp [Term.children, htarget, Form.children]
      · refine Term.mem_subterms_of_mem_children ?_ (Term.mem_subterms_self _)
        simp [Term.children, hchildren]
  | extracted hchildren hbody htaken =>
      exact gathered_of_extracted hbears hchildren hbody htaken hnodup

/-! ## Allocating the construct -/

/-- The arena with a new node: its children adopted, its time taken, and its parent set. -/
def install (arena : Arena) (form : Form Id) (parent : Option Id) : Arena :=
  ((arena.promote form).2.setBuildTime arena.size 0).setParent arena.size parent

theorem size_promote (arena : Arena) (form : Form Id) :
    (arena.promote form).2.size = arena.size + 1 :=
  (size_adopt _ _).trans (size_alloc arena form)

theorem size_install (arena : Arena) (form : Form Id) (parent : Option Id) :
    (arena.install form parent).size = arena.size + 1 := by
  rw [install, size_setParent, size_setBuildTime, size_promote]

theorem node_promote {arena : Arena} {form : Form Id}
    (hinside : ∀ child ∈ form.children, child < arena.size) (id : Id) :
    (arena.promote form).2.node id =
      if id = arena.size then { form }
      else if id ∈ form.children then { arena.node id with parent := some arena.size }
      else arena.node id := by
  have hchildren : (arena.alloc form).2.children arena.size = form.children := by
    rw [children, Arena.form, node_alloc, if_pos rfl]
  have hbelow : ∀ child ∈ (arena.alloc form).2.children arena.size,
      child < (arena.alloc form).2.size := by
    intro child hchild
    rw [hchildren] at hchild
    rw [size_alloc]
    exact Nat.lt_succ_of_lt (hinside child hchild)
  change ((arena.alloc form).2.adopt arena.size).node id = _
  rw [node_adopt _ hbelow, hchildren, node_alloc]
  by_cases hnew : id = arena.size
  · have hout : id ∉ form.children := fun hmem => Nat.lt_irrefl _ (hnew ▸ hinside id hmem)
    rw [if_neg hout, if_pos hnew, if_pos hnew]
  · rw [if_neg hnew, if_neg hnew]

/-- What building a construct does to the nodes: there is a new one, and it adopts its children. -/
theorem node_setBuildTime_promote {arena : Arena} {form : Form Id}
    (hinside : ∀ child ∈ form.children, child < arena.size) (id : Id) :
    ((arena.promote form).2.setBuildTime arena.size 0).node id =
      if id = arena.size then { form, buildTime := some 0 }
      else if id ∈ form.children then { arena.node id with parent := some arena.size }
      else arena.node id := by
  have hnew : arena.size < (arena.promote form).2.size := by
    rw [size_promote]
    exact Nat.lt_succ_self _
  rw [node_setBuildTime _ hnew, node_promote hinside]
  by_cases heq : id = arena.size
  · rw [if_pos heq, if_pos heq, if_pos heq]
  · rw [if_neg heq, if_neg heq, if_neg heq]

theorem node_install {arena : Arena} {form : Form Id}
    (hinside : ∀ child ∈ form.children, child < arena.size) (parent : Option Id) (id : Id) :
    (arena.install form parent).node id =
      if id = arena.size then { form, parent, buildTime := some 0 }
      else if id ∈ form.children then { arena.node id with parent := some arena.size }
      else arena.node id := by
  have hnew : arena.size < ((arena.promote form).2.setBuildTime arena.size 0).size := by
    rw [size_setBuildTime, size_promote]
    exact Nat.lt_succ_self _
  rw [install, node_setParent _ hnew, node_setBuildTime_promote hinside]
  by_cases heq : id = arena.size
  · rw [if_pos heq, if_pos heq, if_pos heq]
  · rw [if_neg heq, if_neg heq, if_neg heq]

/-- A new node has the kind of its form, and other nodes keep theirs. -/
theorem kind_install {arena : Arena} {form : Form Id}
    (hinside : ∀ child ∈ form.children, child < arena.size) (parent : Option Id) {id : Id}
    (hid : id < arena.size) : (arena.install form parent).kind id = arena.kind id := by
  rw [kind, Arena.form, node_install hinside, if_neg (Nat.ne_of_lt hid), kind, Arena.form]
  split <;> rfl

section Install

variable {after : Arena} {built : Form (Term Id)}

/-- The nodes below the fields were there before the construct. -/
theorem Gathered.lt_size (hbears : arena.Bears term) (hgathered : Gathered arena term built.children after)
    {field : Term Id} (hfield : field ∈ built.children) {id : Id} (hid : id ∈ field.labels) :
    id < arena.size :=
  hbears.inside id (hgathered.inside field hfield id hid)

theorem Gathered.children_inside (hbears : arena.Bears term)
    (hgathered : Gathered arena term built.children after) :
    ∀ child ∈ (built.map Term.label).children, child < after.size := by
  intro child hchild
  rw [Form.children_map] at hchild
  obtain ⟨field, hfield, rfl⟩ := List.mem_map.mp hchild
  rw [hgathered.size_eq]
  exact hgathered.lt_size hbears hfield field.label_mem_labels

theorem Gathered.node_install (hbears : arena.Bears term)
    (hgathered : Gathered arena term built.children after) (parent : Option Id) (id : Id) :
    (after.install (built.map Term.label) parent).node id =
      if id = arena.size then { form := built.map Term.label, parent, buildTime := some 0 }
      else if id ∈ (built.map Term.label).children then
        { after.node id with parent := some arena.size }
      else after.node id := by
  rw [Arena.node_install (hgathered.children_inside hbears), hgathered.size_eq]

theorem Gathered.bears_install (hbears : arena.Bears term)
    (hgathered : Gathered arena term built.children after) (parent : Option Id) :
    (after.install (built.map Term.label) parent).Bears (.node arena.size built) where
  holds := by
    refine holds_iff.mpr ⟨?_, ?_⟩
    · rw [form, Term.label_node, hgathered.node_install hbears, if_pos rfl, Term.form_node]
    · intro field hfield
      apply (hgathered.holds field hfield).congr
      intro id hid
      rw [form, hgathered.node_install hbears, if_neg (Nat.ne_of_lt (hgathered.lt_size hbears hfield hid)),
        form]
      split <;> rfl
  nodup := by
    rw [Term.labels_eq, List.nodup_cons]
    refine ⟨?_, hgathered.nodup⟩
    intro hmem
    obtain ⟨field, hfield, hid⟩ := List.mem_flatMap.mp hmem
    exact Nat.lt_irrefl _ (hgathered.lt_size hbears hfield hid)
  inside := by
    intro id hid
    rw [size_install, hgathered.size_eq]
    rw [Term.labels_eq, List.mem_cons] at hid
    rcases hid with rfl | hid
    · exact Nat.lt_succ_self _
    · obtain ⟨field, hfield, hid⟩ := List.mem_flatMap.mp hid
      exact Nat.lt_succ_of_lt (hgathered.lt_size hbears hfield hid)

/-- Of the new nodes there is one, and it alone has a new build time. -/
theorem Gathered.grown_install (hbears : arena.Bears term)
    (hgathered : Gathered arena term built.children after) (parent : Option Id) :
    Grown arena (after.install (built.map Term.label) parent) where
  size_le := by
    rw [size_install, hgathered.size_eq]
    exact Nat.le_succ _
  times := by
    intro id
    rw [hgathered.node_install hbears, size_install, hgathered.size_eq]
    by_cases hnew : id = arena.size
    · rw [if_pos hnew, if_neg (Nat.not_lt_of_le (Nat.le_of_eq hnew.symm)),
        if_pos (Nat.lt_succ_of_le (Nat.le_of_eq hnew))]
    · have hbuildTime : (if id ∈ (built.map Term.label).children then
          { after.node id with parent := some arena.size } else after.node id).buildTime =
            (arena.node id).buildTime := by
        rw [← hgathered.buildTime id]
        split <;> rfl
      rw [if_neg hnew, hbuildTime, (Grown.refl arena).times id]
      by_cases hid : id < arena.size
      · rw [if_pos hid, if_pos hid]
      · have hpast : ¬ id < arena.size + 1 :=
          fun hlt => hnew (Nat.le_antisymm (Nat.le_of_lt_succ hlt) (Nat.le_of_not_lt hid))
        rw [if_neg hid, if_neg hid, if_neg hid, if_neg hpast]

/-- A construct whose fields have been gathered stands in the place of the grouping. -/
theorem Gathered.transition (hbears : arena.Bears term)
    (hgathered : Gathered arena term built.children after) :
    Transition arena term
      (after.install (built.map Term.label) (arena.node term.label).parent)
      (.node arena.size built) where
  toGrown := hgathered.grown_install hbears _
  bears := hgathered.bears_install hbears _
  labels := by
    intro id hid
    rw [Term.labels_eq, List.mem_cons] at hid
    rcases hid with rfl | hid
    · exact Or.inr (Nat.le_refl _)
    · obtain ⟨field, hfield, hid⟩ := List.mem_flatMap.mp hid
      exact Or.inl (hgathered.inside field hfield id hid)
  frame := by
    intro id hid hout
    rw [hgathered.node_install hbears, if_neg (Nat.ne_of_lt hid), if_neg, hgathered.frame id hout]
    rw [Form.children_map]
    intro hmem
    obtain ⟨field, hfield, rfl⟩ := List.mem_map.mp hmem
    exact hout (hgathered.inside field hfield _ field.label_mem_labels)
  parent := by rw [Term.label_node, hgathered.node_install hbears, if_pos rfl]

/-- The new node and what it adopted are linked if the fields were. -/
theorem Gathered.linked_install (hbears : arena.Bears term)
    (hgathered : Gathered arena term built.children after) (hlinked : arena.Linked term) :
    (after.install (built.map Term.label) (arena.node term.label).parent).Linked
      (.node arena.size built) := by
  refine linked_iff.mpr ⟨?_, ?_⟩
  · intro field hfield
    have hmem : field.label ∈ (built.map Term.label).children := by
      rw [Form.children_map]
      exact List.mem_map_of_mem hfield
    have hold := hgathered.lt_size hbears hfield field.label_mem_labels
    rw [hgathered.node_install hbears, if_neg (Nat.ne_of_lt hold), if_pos hmem]
    rfl
  · intro field hfield
    apply (hgathered.linked hlinked field hfield).congr
    intro grandchild hgrandchild id hid
    have hold := hgathered.lt_size hbears hfield (Term.mem_labels_of_mem_children hgrandchild hid)
    -- A node strictly below a field is no field itself, so adoption passes it by.
    have hout : id ∉ (built.map Term.label).children := by
      rw [Form.children_map]
      exact Term.not_mem_map_label hgathered.nodup hfield hgrandchild hid
    rw [hgathered.node_install hbears, if_neg (Nat.ne_of_lt hold), if_neg hout]

end Install

end Arena

end AstPromotion
