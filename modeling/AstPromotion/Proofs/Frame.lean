import AstPromotion.Proofs.Constructors
import AstPromotion.Proofs.Growth

/-! # What one rewrite touches

Whatever the arena, a rewrite by promotion either leaves it as it was or adds one
node, which its children then name as their parent. No other node changes, save
that a class may take one statement out of its body. Normalization allocates
nothing; all it writes are the parents of a node's children and a payload that
is read.
-/

namespace AstPromotion

/-! ## Rules that read -/

/-- Whether the outcome is a payload that has been read. -/
def Outcome.reads : Outcome → Bool
  | .coerce _ => true
  | _ => false

namespace Normalization

/-- The names of the rules that read payloads. -/
def readers : List String :=
  [coerceNumeric, coerceBoolean, coerceText].map (·.name)

theorem mem_readers :
    ∀ rule ∈ catalogue, ∀ shape ∈ rule.shapes, shape.outcome.reads = true → rule.name ∈ readers := by
  decide

variable {α : Type} {look : α → Form α} {subject : α} {edit : Edit α}

/-- A value is read by a rule that reads payloads. -/
theorem mem_readers_of_plan? {rule : String} {value : Value}
    (hplan : catalogue.plan? look subject = some (rule, .coerce value)) : rule ∈ readers := by
  obtain ⟨found, hfound, rfl, hrule⟩ := Catalogue.exists_of_plan? hplan
  obtain ⟨-, shape, hshape, -, houtcome⟩ := Rule.exists_of_plan? hrule
  refine mem_readers found hfound shape hshape ?_
  cases hcase : shape.outcome with
  | coerce read => rfl
  | lift position =>
      rw [hcase] at houtcome
      obtain ⟨child, -, hedit⟩ := Option.map_eq_some_iff.mp houtcome
      cases hedit
  | remove =>
      rw [hcase] at houtcome
      cases houtcome
  | build template =>
      rw [hcase] at houtcome
      obtain ⟨form, -, hedit⟩ := Option.map_eq_some_iff.mp houtcome
      cases hedit
  | buildClass name body =>
      have hbuilds := Outcome.builds_of_plan? houtcome
      rw [hcase] at hbuilds
      cases hbuilds

end Normalization

namespace Arena

variable {before after arena : Arena} {subject : Id} {rule : String}

/-! ## Building -/

/-- What building a construct does to the nodes, even where ids are out of range. -/
theorem node_construct (arena : Arena) (form : Form Id) {id : Id} (hid : id ≤ arena.size) :
    ((arena.promote form).2.setBuildTime arena.size 0).node id =
      if id = arena.size then
        { form
          parent := if arena.size ∈ form.children then some arena.size else none
          buildTime := some 0 }
      else if id ∈ form.children then { arena.node id with parent := some arena.size }
      else arena.node id := by
  have hnew : arena.size < (arena.promote form).2.size := by
    rw [size_promote]
    exact Nat.lt_succ_self _
  have hinside : id < (arena.alloc form).2.size := by
    rw [size_alloc]
    exact Nat.lt_succ_of_le hid
  have hchildren : (arena.alloc form).2.children arena.size = form.children := by
    rw [children, Arena.form, node_alloc, if_pos rfl]
  have hadopted : (arena.promote form).2.node id =
      if id ∈ form.children then
        { (arena.alloc form).2.node id with parent := some arena.size }
      else (arena.alloc form).2.node id := by
    rw [← hchildren]
    exact node_adopt_of_lt _ arena.size hinside
  rw [node_setBuildTime _ hnew, hadopted, node_alloc]
  by_cases heq : id = arena.size
  · subst heq
    simp only [if_true]
    split <;> rfl
  · simp only [heq, if_false]

/-- One construct has been built. It alone is new and has a new build time, and its children, and no
other nodes, name it as their parent. All other nodes hold what they held, but for the body of a
class, which has lost the statement that the constructor of the class was found in. -/
structure Built (before after : Arena) : Prop where
  size_eq : after.size = before.size + 1
  construct : ∃ construct, after.kind before.size = .construct construct
  buildTime : ((after.node before.size).buildTime).isSome = true
  buildTime_eq : ∀ id < before.size, (after.node id).buildTime = (before.node id).buildTime
  parent_eq : ∀ id < after.size, (after.node id).parent =
    if id ∈ after.children before.size then some before.size else (before.node id).parent
  form_eq : ∀ id < before.size, after.form id = before.form id ∨
    ∃ name constructor earlier statement later,
      after.form before.size = .classLiteral name (some constructor) id ∧
        before.form id = .group .block (earlier ++ statement :: later) ∧
          after.form id = .group .block (earlier ++ later)

/-- A group that is given a new list keeps its parent. -/
theorem parent_regroup (arena : Arena) (relisted : Option (Id × List Id)) (id : Id) :
    ((arena.regroup relisted).node id).parent = (arena.node id).parent := by
  cases relisted with
  | none => rfl
  | some given =>
      rw [regroup, setForm, node_modify]
      split <;> rfl

/-- The body of a class that gives up its constructor loses the statement it was found in. -/
theorem form_regroup_of_step {form : Form Id} {relisted : Option (Id × List Id)}
    (hstep : Promotion.Step arena.form subject (.build form relisted)) (id : Id) :
    (arena.regroup relisted).form id = arena.form id ∨
      ∃ name constructor earlier statement later, form = .classLiteral name (some constructor) id ∧
        arena.form id = .group .block (earlier ++ statement :: later) ∧
          (arena.regroup relisted).form id = .group .block (earlier ++ later) := by
  cases relisted with
  | none => exact Or.inl rfl
  | some given =>
      obtain ⟨_, name, _, body, _, items, function, others, -, -, -, -, hbody, htaken, rfl, rfl⟩ :=
        Promotion.exists_of_step_relisted hstep
      obtain ⟨earlier, statement, later, rfl, rfl, -, -⟩ :=
        Promotion.exists_of_takeConstructor? htaken
      -- A body with a statement in it is a node of the arena.
      have hinside : body < arena.size := by
        by_contra houtside
        rw [Arena.form, arena.node_of_size_le (Nat.le_of_not_lt houtside)] at hbody
        have hnone : [] = earlier ++ statement :: later := (Form.group.inj hbody).2
        simp at hnone
      rw [form_regroup hbody hinside]
      by_cases heq : id = body
      · subst heq
        exact Or.inr ⟨name, function, earlier, statement, later, rfl, hbody, if_pos rfl⟩
      · exact Or.inl (if_neg heq)

theorem built_of_step {form : Form Id} {relisted : Option (Id × List Id)}
    (hstep : Promotion.Step arena.form subject (.build form relisted)) :
    Built arena
      (((arena.regroup relisted).promote form).2.setBuildTime (arena.regroup relisted).size 0) := by
  obtain ⟨construct, hconstruct⟩ := Promotion.exists_kind_of_step hstep
  have hgrown := (still_regroup arena relisted).then_grownBy (grownBy_build _ hconstruct)
  have hsize := (still_regroup arena relisted).size_eq
  have hnode {id : Id} (hid : id ≤ arena.size) :=
    node_construct (arena.regroup relisted) form (hsize.symm ▸ hid)
  rw [hsize] at hgrown ⊢
  simp only [hsize] at hnode
  -- From here on only the nodes of the resulting arena matter.
  generalize (Arena.promote _ form).2.setBuildTime arena.size 0 = after at hgrown hnode ⊢
  have hnew : after.form arena.size = form := by
    rw [Arena.form, hnode (Nat.le_refl _), if_pos rfl]
  have hold {id : Id} (hid : id < arena.size) :
      after.form id = (arena.regroup relisted).form id := by
    rw [Arena.form, hnode (Nat.le_of_lt hid), if_neg (Nat.ne_of_lt hid)]
    split <;> rfl
  exact {
    size_eq := hgrown.size_eq
    construct := ⟨construct, by rw [kind, hnew, hconstruct]⟩
    buildTime := by rw [hnode (Nat.le_refl _), if_pos rfl]; rfl
    buildTime_eq := fun id hid => by rw [hgrown.times, if_pos hid]
    parent_eq := by
      intro id hid
      rw [hgrown.size_eq] at hid
      rw [hnode (Nat.le_of_lt_succ hid), children, hnew]
      by_cases heq : id = arena.size
      · subst heq
        rw [if_pos rfl, arena.node_of_size_le (Nat.le_refl _)]
        rfl
      · rw [if_neg heq]
        split
        next => rfl
        next => exact parent_regroup arena relisted id
    form_eq := by
      intro id hid
      rw [hold hid, hnew]
      exact form_regroup_of_step hstep id }

/-! ## Rewriting -/

/-- What a rewrite by promotion does to an arena, by the result it returns. -/
structure Promotes (before : Arena) (subject : Id) (firing : Option Firing) (after : Arena) :
    Prop where
  unmatched : firing = none → after = before
  removed : ∀ rule, firing = some ⟨rule, .remove⟩ → after = before
  lifted : ∀ rule child, firing = some ⟨rule, .replace child⟩ → child < before.size →
    child ∈ before.children subject ∧ after = before
  built : ∀ rule id, firing = some ⟨rule, .replace id⟩ → before.size ≤ id →
    id = before.size ∧ Built before after
  replaced : ∀ rule, firing ≠ some ⟨rule, .unchanged⟩

/-- What a rewrite by normalization does to an arena, whatever it returns. -/
structure Normalizes (before : Arena) (subject : Id) (firing : Option Firing) (after : Arena) :
    Prop where
  size_eq : after.size = before.size
  buildTime_eq : ∀ id, (after.node id).buildTime = (before.node id).buildTime
  parent_eq : ∀ id < before.size, (after.node id).parent =
    if id ∈ before.children subject then some subject else (before.node id).parent
  form_eq : ∀ id, id ≠ subject → after.form id = before.form id
  subject_eq : after.form subject = before.form subject ∨
    ∃ rule ∈ Normalization.readers, firing = some ⟨rule, .unchanged⟩ ∧
      ∃ kind text value, before.form subject = .leaf kind (.raw text) ∧
        after.form subject = .leaf kind value

/-- A rewrite that changes nothing may put an existing child in the subject's place. -/
theorem Promotes.refl {firing : Option Firing}
    (hlifted : ∀ rule child, firing = some ⟨rule, .replace child⟩ →
      child ∈ arena.children subject ∧ child < arena.size)
    (hreplaced : ∀ rule, firing ≠ some ⟨rule, .unchanged⟩) :
    Promotes arena subject firing arena where
  unmatched _ := rfl
  removed _ _ := rfl
  lifted rule child hfiring _ := ⟨(hlifted rule child hfiring).1, rfl⟩
  built rule child hfiring houtside :=
    absurd (hlifted rule child hfiring).2 (Nat.not_lt_of_le houtside)
  replaced := hreplaced

theorem promotes_rewrite (arena : Arena) (subject : Id) :
    Promotes arena subject (arena.rewrite .promotion subject).1
      (arena.rewrite .promotion subject).2 := by
  cases hplan : Promotion.catalogue.plan? arena.form subject with
  | none =>
      have hrewrite : arena.rewrite .promotion subject = (none, arena) := by
        simp only [rewrite, Phase.catalogue, hplan]
      rw [hrewrite]
      exact Promotes.refl (by rintro - - ⟨⟩) (by rintro - ⟨⟩)
  | some planned =>
      obtain ⟨rule, edit⟩ := planned
      have hstep := Promotion.step_of_plan? hplan
      cases edit with
      | coerce value => exact absurd hstep Promotion.not_step_coerce
      | remove =>
          have hrewrite : arena.rewrite .promotion subject = (some ⟨rule, .remove⟩, arena) := by
            simp only [rewrite, Phase.catalogue, hplan]
            rfl
          rw [hrewrite]
          exact Promotes.refl (by rintro - - ⟨⟩) (by rintro - ⟨⟩)
      | lift child =>
          have hrewrite :
              arena.rewrite .promotion subject = (some ⟨rule, .replace child⟩, arena) := by
            simp only [rewrite, Phase.catalogue, hplan]
            rfl
          rw [hrewrite]
          refine Promotes.refl ?_ (by rintro - ⟨⟩)
          rintro _ _ ⟨⟩
          rw [children, Promotion.children_of_step_lift hstep]
          exact ⟨List.mem_singleton_self child, lt_size_of_step_lift hstep⟩
      | build form relisted =>
          have hsize := (still_regroup arena relisted).size_eq
          have hbuilt := built_of_step hstep
          rw [rewrite_of_build hplan, hsize]
          rw [hsize] at hbuilt
          exact {
            unmatched := by rintro ⟨⟩
            removed := by rintro - ⟨⟩
            lifted := by
              rintro _ _ ⟨⟩ hinside
              exact absurd hinside (Nat.lt_irrefl _)
            built := by
              rintro _ _ ⟨⟩ -
              exact ⟨rfl, hbuilt⟩
            replaced := by rintro - ⟨⟩ }

theorem normalizes_adopt (arena : Arena) (subject : Id) (firing : Option Firing) :
    Normalizes arena subject firing (arena.adopt subject) where
  size_eq := size_adopt arena subject
  buildTime_eq := (still_adopt arena subject).buildTime_eq
  parent_eq id hid := by
    rw [node_adopt_of_lt arena subject hid]
    split <;> rfl
  form_eq id _ := by rw [form_adopt]
  subject_eq := Or.inl (by rw [form_adopt])

/-- Reading a payload writes to no other node, and to nothing else in that node. -/
theorem Normalizes.setForm {firing : Option Firing} (hbefore : Normalizes before subject none after)
    (form : Form Id)
    (hread : ∃ rule ∈ Normalization.readers, firing = some ⟨rule, .unchanged⟩ ∧
      ∃ kind text value, before.form subject = .leaf kind (.raw text) ∧ form = .leaf kind value) :
    Normalizes before subject firing (after.setForm subject form) where
  size_eq := by rw [size_setForm, hbefore.size_eq]
  buildTime_eq id := by
    rw [← hbefore.buildTime_eq id, Arena.setForm, node_modify]
    split <;> rfl
  parent_eq id hid := by
    rw [← hbefore.parent_eq id hid, Arena.setForm, node_modify]
    split <;> rfl
  form_eq id hid := by
    rw [← hbefore.form_eq id hid, Arena.form, Arena.setForm, node_modify,
      if_neg fun hsame => hid hsame.1.symm, Arena.form]
  subject_eq := by
    obtain ⟨rule, hrule, hfiring, kind, text, value, hraw, rfl⟩ := hread
    refine Or.inr ⟨rule, hrule, hfiring, kind, text, value, hraw, ?_⟩
    have hinside : subject < after.size := by
      by_contra houtside
      rw [hbefore.size_eq] at houtside
      rw [Arena.form, before.node_of_size_le (Nat.le_of_not_lt houtside)] at hraw
      cases hraw
    rw [Arena.form, node_setForm after hinside, if_pos rfl]

theorem normalizes_rewrite (arena : Arena) (subject : Id) :
    Normalizes arena subject (arena.rewrite .normalization subject).1
      (arena.rewrite .normalization subject).2 := by
  have hform := form_adopt arena subject
  cases hplan : Normalization.catalogue.plan? arena.form subject with
  | none =>
      have hrewrite : arena.rewrite .normalization subject = (none, arena.adopt subject) := by
        simp only [rewrite, Phase.catalogue, hform, hplan]
      rw [hrewrite]
      exact normalizes_adopt arena subject none
  | some planned =>
      obtain ⟨rule, edit⟩ := planned
      have hrewrite : arena.rewrite .normalization subject =
          (some ⟨rule, ((arena.adopt subject).enact subject edit).1⟩,
            ((arena.adopt subject).enact subject edit).2) := by
        simp only [rewrite, Phase.catalogue, hform, hplan]
      rw [hrewrite]
      cases edit with
      | coerce value =>
          have hreader := Normalization.mem_readers_of_plan? hplan
          cases Normalization.step_of_plan? hplan with
          | @coerce kind text _ hraw _ =>
              rw [enact_coerce, hform, hraw]
              exact (normalizes_adopt arena subject none).setForm _
                ⟨rule, hreader, rfl, kind, text, value, hraw, rfl⟩
      | lift child => exact normalizes_adopt arena subject _
      | remove => exact normalizes_adopt arena subject _
      | build form relisted => cases Normalization.step_of_plan? hplan

/-- Whatever the arena and the node, a rewrite by promotion that does not match, that removes the
node or that lifts a child leaves the arena as it was, and any other builds one construct. A rewrite
by normalization writes to nothing but the parents of the node's children and a payload that is
read. -/
theorem frame_of_rewrite (arena : Arena) (subject : Id) :
    Promotes arena subject (arena.rewrite .promotion subject).1
        (arena.rewrite .promotion subject).2 ∧
      Normalizes arena subject (arena.rewrite .normalization subject).1
        (arena.rewrite .normalization subject).2 :=
  ⟨promotes_rewrite arena subject, normalizes_rewrite arena subject⟩

end Arena

end AstPromotion
