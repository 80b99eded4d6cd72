import AstPromotion.Proofs.Frame
import AstPromotion.Proofs.Passes
import AstPromotion.Proofs.Slots
import Mathlib.Data.Finset.Card

/-! # Arenas without cycles

Nodes may be shared as long as none leads back to itself. Then every node has a
height that its children stay below, and no height exceeds the number of nodes.
What a visit puts in a node's place is taken or built from what is below the
node, so nodes keep their heights through any number of passes.
-/

namespace AstPromotion.Arena

variable {arena before middle after : Arena} {root id : Id} {phase : Phase}
  {height heights : Id → Nat}

/-! ## Heights -/

theorem Reaches.trans {first second third : Id} (hfirst : arena.Reaches first second)
    (hsecond : arena.Reaches second third) : arena.Reaches first third := by
  induction hsecond with
  | root => exact hfirst
  | child _ hchild ih => exact ih.child hchild

/-- A node is reached at once or from a child. -/
theorem Reaches.eq_or_exists_child {other : Id} (hreaches : arena.Reaches id other) :
    other = id ∨ ∃ child ∈ arena.children id, arena.Reaches child other := by
  induction hreaches with
  | root => exact Or.inl rfl
  | @child between other _ hchild ih =>
      rcases ih with rfl | ⟨first, hfirst, hbetween⟩
      · exact Or.inr ⟨other, hchild, .root⟩
      · exact Or.inr ⟨first, hfirst, hbetween.child hchild⟩

/-- There is a node for every id that is reachable from the root, and no path from there comes back
to where it was. Nodes may be shared. -/
structure Acyclic (arena : Arena) (root : Id) : Prop where
  inside : ∀ id, arena.Reaches root id → id < arena.size
  irreflexive : ∀ id, arena.Reaches root id → ∀ child ∈ arena.children id, ¬ arena.Reaches child id

/-- Heights that fall on the way from a node to a child. Nodes of height 0 may be anything. -/
structure Layered (arena : Arena) (height : Id → Nat) : Prop where
  inside : ∀ id, 0 < height id → id < arena.size
  below : ∀ id, 0 < height id → ∀ child ∈ arena.children id,
    0 < height child ∧ height child < height id

open Classical in
/-- The nodes that can be reached from a node. -/
noncomputable def reached (arena : Arena) (id : Id) : Finset Id :=
  (Finset.range arena.size).filter (arena.Reaches id)

theorem mem_reached {other : Id} :
    other ∈ arena.reached id ↔ other < arena.size ∧ arena.Reaches id other := by
  simp only [reached, Finset.mem_filter, Finset.mem_range]

open Classical in
/-- How many nodes can be reached from a node, if the node can be reached from the root. -/
noncomputable def extent (arena : Arena) (root id : Id) : Nat :=
  if arena.Reaches root id then (arena.reached id).card else 0

theorem extent_le (arena : Arena) (root id : Id) : arena.extent root id ≤ arena.size := by
  rw [extent]
  split
  · refine (Finset.card_le_card fun other hother => ?_).trans (Finset.card_range arena.size).le
    exact Finset.mem_range.mpr (mem_reached.mp hother).1
  · exact Nat.zero_le _

theorem Acyclic.extent_pos_iff (hacyclic : arena.Acyclic root) :
    0 < arena.extent root id ↔ arena.Reaches root id := by
  rw [extent]
  split
  next hid =>
      have hself := mem_reached.mpr ⟨hacyclic.inside id hid, .root⟩
      exact iff_of_true (Finset.card_pos.mpr ⟨id, hself⟩) hid
  next hid => exact iff_of_false (Nat.lt_irrefl 0) hid

/-- A node that does not lead back to itself reaches more than its children do. -/
theorem Acyclic.layered (hacyclic : arena.Acyclic root) : arena.Layered (arena.extent root) where
  inside id hpos := hacyclic.inside id (hacyclic.extent_pos_iff.mp hpos)
  below id hpos child hchild := by
    have hid := hacyclic.extent_pos_iff.mp hpos
    have hbelow := hid.child hchild
    refine ⟨hacyclic.extent_pos_iff.mpr hbelow, ?_⟩
    rw [extent, extent, if_pos hid, if_pos hbelow]
    apply Finset.card_lt_card
    apply (Finset.ssubset_iff_of_subset ?_).mpr
    · refine ⟨id, mem_reached.mpr ⟨hacyclic.inside id hid, .root⟩, fun hback => ?_⟩
      exact hacyclic.irreflexive id hid child hchild (mem_reached.mp hback).2
    · intro other hother
      obtain ⟨hinside, hreaches⟩ := mem_reached.mp hother
      exact mem_reached.mpr ⟨hinside, (Reaches.root.child hchild).trans hreaches⟩

/-- Children that were allocated before their holders lead to no cycle. -/
theorem acyclic_of_lt (hroot : root < arena.size)
    (hchildren : ∀ id < arena.size, ∀ child ∈ arena.children id, child < id) :
    arena.Acyclic root := by
  have hinside {start id : Id} (hstart : start < arena.size) (hreaches : arena.Reaches start id) :
      id ≤ start := by
    induction hreaches with
    | root => exact Nat.le_refl _
    | child _ hchild ih =>
        exact (hchildren _ (Nat.lt_of_le_of_lt ih hstart) _ hchild).le.trans ih
  refine ⟨fun id hid => Nat.lt_of_le_of_lt (hinside hroot hid) hroot, ?_⟩
  intro id hid child hchild hback
  have hid := Nat.lt_of_le_of_lt (hinside hroot hid) hroot
  have hchild := hchildren id hid child hchild
  exact Nat.not_lt_of_le (hinside (hchild.trans hid) hback) hchild

/-- Heights for what an arena has become. The nodes that were there keep theirs. -/
structure Relayered (before : Arena) (height : Id → Nat) (after : Arena) (heights : Id → Nat) :
    Prop where
  layered : after.Layered heights
  size_le : before.size ≤ after.size
  agrees : ∀ id < before.size, heights id = height id

theorem Layered.relayered (hlayered : arena.Layered height) : Relayered arena height arena height :=
  ⟨hlayered, Nat.le_refl _, fun _ _ => rfl⟩

theorem Relayered.trans {highest : Id → Nat} (hfirst : Relayered before height middle heights)
    (hsecond : Relayered middle heights after highest) : Relayered before height after highest where
  layered := hsecond.layered
  size_le := hfirst.size_le.trans hsecond.size_le
  agrees id hid := by
    rw [hsecond.agrees id (Nat.lt_of_lt_of_le hid hfirst.size_le), hfirst.agrees id hid]

/-- Heights stay good where children are only lost or taken from below. -/
theorem Layered.of_children (hlayered : before.Layered height) (hsize : after.size = before.size)
    (hchildren : ∀ id, 0 < height id → ∀ child ∈ after.children id,
      child ∈ before.children id ∨ 0 < height child ∧ height child < height id) :
    after.Layered height where
  inside id hid := hsize ▸ hlayered.inside id hid
  below id hid child hchild :=
    (hchildren id hid child hchild).elim (hlayered.below id hid child) fun hlower => hlower

theorem Layered.of_form_eq (hlayered : before.Layered height) (hsize : after.size = before.size)
    (hform : after.form = before.form) : after.Layered height := by
  refine hlayered.of_children hsize fun id _ child hchild => Or.inl ?_
  rwa [children, hform] at hchild

/-! ## Rewriting -/

theorem children_setForm (arena : Arena) (id other : Id) (form : Form Id) :
    (arena.setForm id form).children other =
      if id = other ∧ other < arena.size then form.children else arena.children other := by
  rw [children, Arena.form, setForm, node_modify]
  split <;> rfl

theorem Layered.setForm (hlayered : arena.Layered height) {form : Form Id}
    (hform : 0 < height id → ∀ child ∈ form.children,
      child ∈ arena.children id ∨ 0 < height child ∧ height child < height id) :
    (arena.setForm id form).Layered height := by
  refine hlayered.of_children (size_setForm _ _ _) fun other hother child hchild => ?_
  rw [children_setForm] at hchild
  split at hchild
  next hsame =>
      obtain ⟨rfl, -⟩ := hsame
      exact hform hother child hchild
  next => exact Or.inl hchild

/-- What is reachable from a node is no higher than the node. -/
theorem Layered.le_of_reaches (hlayered : arena.Layered height) (hid : 0 < height id) {other : Id}
    (hreaches : arena.Reaches id other) : 0 < height other ∧ height other ≤ height id := by
  induction hreaches with
  | root => exact ⟨hid, Nat.le_refl _⟩
  | child _ hchild ih =>
      obtain ⟨hpos, hless⟩ := hlayered.below _ ih.1 _ hchild
      exact ⟨hpos, hless.le.trans ih.2⟩

/-- Whatever promotion builds with comes from below the subject. -/
theorem reaches_of_fields {subject : Id} {form : Form Id} {relisted : Option (Id × List Id)}
    (hfields : Promotion.Fields arena.form subject form relisted) :
    ∀ child ∈ form.children, ∃ first ∈ arena.children subject, arena.Reaches first child := by
  intro child hchild
  cases hfields with
  | own hfields => exact ⟨child, hfields.subset hchild, .root⟩
  | @opened target mark value callee arguments hchildren htarget =>
      have hheld : arena.children target = [callee, arguments] := by rw [children, htarget]; rfl
      rw [children, hchildren]
      simp only [Form.children, List.mem_cons, List.not_mem_nil, or_false] at hchild
      rcases hchild with rfl | rfl | rfl
      · exact ⟨target, by simp, Reaches.root.child (by simp [hheld])⟩
      · exact ⟨target, by simp, Reaches.root.child (by simp [hheld])⟩
      · exact ⟨child, by simp, .root⟩
  | @extracted word name opening body closing function items others hchildren hbody htaken =>
      have hheld : arena.children body = items := by rw [children, hbody]; rfl
      obtain ⟨_, statement, _, rfl, -, hfound, -⟩ := Promotion.exists_of_takeConstructor? htaken
      have hstatement : arena.Reaches body statement := Reaches.root.child (by simp [hheld])
      rw [children, hchildren]
      simp only [Form.children, Option.toList, List.cons_append, List.nil_append, List.mem_cons,
        List.not_mem_nil, or_false] at hchild
      rcases hchild with rfl | rfl | rfl
      · exact ⟨child, by simp, .root⟩
      · have hfunction := reaches_of_declares (Promotion.constructorOf?_eq_some_iff.mp hfound)
        exact ⟨body, by simp, hstatement.trans hfunction⟩
      · exact ⟨child, by simp, .root⟩

/-- Giving up a constructor takes a statement out of a body. -/
theorem Layered.regroup (hlayered : arena.Layered height) {subject : Id} {form : Form Id}
    {relisted : Option (Id × List Id)}
    (hfields : Promotion.Fields arena.form subject form relisted) :
    (arena.regroup relisted).Layered height := by
  cases hfields with
  | own => exact hlayered
  | opened => exact hlayered
  | @extracted word name opening body closing function items others hchildren hbody htaken =>
      obtain ⟨_, _, _, rfl, rfl, -, -⟩ := Promotion.exists_of_takeConstructor? htaken
      refine hlayered.setForm fun _ child hchild => Or.inl ?_
      rw [hbody] at hchild
      rw [children, hbody]
      exact List.mem_append.mpr ((List.mem_append.mp hchild).imp_right (List.mem_cons_of_mem _))

/-- A node that is built on nodes of some height has any greater height. -/
theorem Layered.construct (hlayered : arena.Layered height) {form : Form Id} {bound : Nat}
    (hform : ∀ child ∈ form.children, 0 < height child ∧ height child < bound) :
    Relayered arena height ((arena.promote form).2.setBuildTime arena.size 0)
      (Function.update height arena.size bound) := by
  have hsize : ((arena.promote form).2.setBuildTime arena.size 0).size = arena.size + 1 := by
    rw [size_setBuildTime, size_promote]
  have hchildren {id : Id} (hid : id ≤ arena.size) :
      ((arena.promote form).2.setBuildTime arena.size 0).children id =
        if id = arena.size then form.children else arena.children id := by
    rw [children, Arena.form, node_construct arena form hid]
    split
    next => rfl
    next => split <;> rfl
  have hnew : Function.update height arena.size bound arena.size = bound := Function.update_self ..
  have hold {id : Id} (hid : id < arena.size) :
      Function.update height arena.size bound id = height id :=
    Function.update_of_ne (Nat.ne_of_lt hid) ..
  have hinside {id : Id} (hid : 0 < Function.update height arena.size bound id) :
      id < arena.size ∨ id = arena.size := by
    by_cases heq : id = arena.size
    · exact Or.inr heq
    · rw [Function.update_of_ne heq] at hid
      exact Or.inl (hlayered.inside id hid)
  refine ⟨⟨?_, ?_⟩, hsize ▸ Nat.le_succ _, fun id hid => hold hid⟩
  · intro id hid
    rw [hsize]
    exact Nat.lt_succ_of_le ((hinside hid).elim Nat.le_of_lt Nat.le_of_eq)
  · intro id hid child hchild
    rcases hinside hid with hid' | rfl
    · rw [hchildren hid'.le, if_neg (Nat.ne_of_lt hid')] at hchild
      rw [hold hid'] at hid ⊢
      have hbelow := hlayered.below id hid child hchild
      rwa [hold (hlayered.inside child hbelow.1)]
    · rw [hchildren (Nat.le_refl _), if_pos rfl] at hchild
      have hbelow := hform child hchild
      rwa [hnew, hold (hlayered.inside child hbelow.1)]

/-! ## Visits -/

/-- A visit that puts nothing in its subject's place that is higher than the subject was. -/
def StaysBelow (before : Arena) (height : Id → Nat) (subject : Id) (visit : Visit) : Prop :=
  ∃ heights, Relayered before height visit.arena heights ∧
    ∀ id, visit.standing = some id → 0 < heights id ∧ heights id ≤ height subject

/-- A visit of what another visit put in its subject's place; the rewrites do not matter. -/
theorem StaysBelow.andThen {subject current : Id} {first second : Visit}
    (hfirst : StaysBelow before height subject first) (hcurrent : first.standing = some current)
    (hsecond : ∀ heights, first.arena.Layered heights → 0 < heights current →
      StaysBelow first.arena heights current second) (events : List Event) :
    StaysBelow before height subject { second with events } := by
  obtain ⟨heights, hmiddle, hstanding⟩ := hfirst
  obtain ⟨hpos, hle⟩ := hstanding current hcurrent
  obtain ⟨highest, hafter, hbelow⟩ := hsecond heights hmiddle.layered hpos
  refine ⟨highest, hmiddle.trans hafter, fun id hid => ?_⟩
  exact (hbelow id hid).imp_right fun hless => hless.trans hle

theorem staysBelow_carryOut (hlayered : arena.Layered height) {subject : Id}
    (hsubject : 0 < height subject) (parent : Option Id) (rule : String) {edit : Edit Id}
    (hlocal : edit.IsLocal arena.form subject) :
    StaysBelow arena height subject (arena.carryOut subject parent rule edit) := by
  cases edit with
  | coerce value =>
      refine ⟨height, ⟨hlayered.setForm ?_, (size_setForm _ _ _).ge, fun _ _ => rfl⟩, ?_⟩
      · intro _ child hchild
        rw [Form.children_withValue] at hchild
        exact Or.inl hchild
      · rintro _ ⟨⟩
        exact ⟨hsubject, Nat.le_refl _⟩
  | lift child =>
      refine ⟨height, ⟨hlayered.of_form_eq (size_setParent _ _ _) ?_, (size_setParent _ _ _).ge,
        fun _ _ => rfl⟩, ?_⟩
      · exact funext fun other => form_setParent _ _ _ _
      · rintro _ ⟨⟩
        exact (hlayered.below subject hsubject child hlocal).imp_right Nat.le_of_lt
  | remove => exact ⟨height, hlayered.relayered, nofun⟩
  | build form relisted =>
      have hsize := (still_regroup arena relisted).size_eq
      have hbuilt := (hlayered.regroup hlocal).construct fun child hchild => by
        obtain ⟨first, hfirst, hreaches⟩ := reaches_of_fields hlocal child hchild
        obtain ⟨hpos, hless⟩ := hlayered.below subject hsubject first hfirst
        obtain ⟨hchild_pos, hchild_le⟩ := hlayered.le_of_reaches hpos hreaches
        exact ⟨hchild_pos, Nat.lt_of_le_of_lt hchild_le hless⟩
      refine ⟨_, ⟨hbuilt.layered.of_form_eq (size_setParent _ _ _) ?_, ?_, ?_⟩, ?_⟩
      · exact funext fun other => form_setParent _ _ _ _
      · exact hsize ▸ hbuilt.size_le.trans (size_setParent _ _ _).ge
      · exact hsize ▸ hbuilt.agrees
      · rintro _ ⟨⟩
        rw [Function.update_self]
        exact ⟨hsubject, Nat.le_refl _⟩

theorem form_prepare (arena : Arena) (phase : Phase) (subject : Id) :
    (arena.prepare phase subject).form = arena.form := by
  cases phase with
  | normalization => exact arena.form_adopt subject
  | promotion => rfl

theorem staysBelow_offer (hlayered : arena.Layered height) {subject : Id}
    (hsubject : 0 < height subject) (phase : Phase) (parent : Option Id) :
    StaysBelow arena height subject (arena.offer phase subject parent) := by
  have hsize := size_prepare arena phase subject
  have hprepared := hlayered.of_form_eq hsize (form_prepare arena phase subject)
  rw [offer_eq]
  cases hplan : phase.catalogue.plan? arena.form subject with
  | none =>
      refine ⟨height, ⟨hprepared, hsize.ge, fun _ _ => rfl⟩, ?_⟩
      rintro _ ⟨⟩
      exact ⟨hsubject, Nat.le_refl _⟩
  | some planned =>
      obtain ⟨rule, edit⟩ := planned
      have hlocal := isLocal_of_plan? hplan
      rw [← form_prepare arena phase subject] at hlocal
      obtain ⟨heights, hafter, hstanding⟩ :=
        staysBelow_carryOut hprepared hsubject parent rule hlocal
      exact ⟨heights, ⟨hafter.layered, hsize ▸ hafter.size_le, hsize ▸ hafter.agrees⟩, hstanding⟩

section Below

variable {visit : Id → Arena → Visit}

/-- Visits to nodes below some height put only nodes below that height in their places. -/
theorem exists_relayered_visitEach
    (hvisit : ∀ id arena height, Layered arena height → 0 < height id →
      StaysBelow arena height id (visit id arena))
    (hlayered : arena.Layered height) {bound : Nat} {ids : List Id}
    (hids : ∀ id ∈ ids, 0 < height id ∧ height id < bound) :
    ∃ heights, Relayered arena height (arena.visitEach visit ids).arena heights ∧
      ∀ id, some id ∈ (arena.visitEach visit ids).standing →
        0 < heights id ∧ heights id < bound := by
  induction ids generalizing arena height with
  | nil => exact ⟨height, hlayered.relayered, nofun⟩
  | cons first rest ih =>
      obtain ⟨hpos, hless⟩ := hids first List.mem_cons_self
      obtain ⟨middle, hfirst, hstanding⟩ := hvisit first arena height hlayered hpos
      obtain ⟨heights, hrest, hothers⟩ := ih hfirst.layered fun id hid => by
        have hbelow := hids id (List.mem_cons_of_mem _ hid)
        rwa [hfirst.agrees id (hlayered.inside id hbelow.1)]
      refine ⟨heights, hfirst.trans hrest, fun id hid => ?_⟩
      rcases List.mem_cons.mp hid with hid | hid
      · obtain ⟨hid_pos, hid_le⟩ := hstanding id hid.symm
        rw [hrest.agrees id (hfirst.layered.inside id hid_pos)]
        exact ⟨hid_pos, Nat.lt_of_le_of_lt hid_le hless⟩
      · exact hothers id hid

theorem staysBelow_visitChildren
    (hvisit : ∀ id arena height, Layered arena height → 0 < height id →
      StaysBelow arena height id (visit id arena))
    (hlayered : arena.Layered height) (hid : 0 < height id) :
    StaysBelow arena height id (arena.visitChildren visit id) := by
  obtain ⟨heights, hvisits, hstanding⟩ :=
    exists_relayered_visitEach hvisit hlayered (hlayered.below id hid)
  have hkept := hvisits.agrees id (hlayered.inside id hid)
  have hrefilled : Layered (setForm _ id (Form.refill _ _)) heights :=
    hvisits.layered.setForm fun _ child hchild =>
      (Form.mem_children_refill hchild).imp_right fun hentry => hkept ▸ hstanding child hentry
  refine ⟨heights, ⟨hrefilled.of_form_eq (size_adopt _ _) (form_adopt _ _), ?_, hvisits.agrees⟩, ?_⟩
  · exact hvisits.size_le.trans ((size_adopt _ _).trans (size_setForm _ _ _)).ge
  · rintro _ ⟨⟩
    exact ⟨hkept ▸ hid, hkept.le⟩

end Below

/-- However deep a visit goes, it puts nothing higher in its subject's place. -/
theorem staysBelow_visit (phase : Phase) (depth : Nat) (id : Id) (arena : Arena)
    (height : Id → Nat) (hlayered : arena.Layered height) (hid : 0 < height id) :
    StaysBelow arena height id (visit phase depth id arena) := by
  induction depth generalizing id arena height with
  | zero =>
      refine ⟨height, hlayered.relayered, ?_⟩
      rintro _ ⟨⟩
      exact ⟨hid, Nat.le_refl _⟩
  | succ depth ih =>
      cases phase with
      | normalization =>
          have hoffered := staysBelow_offer hlayered hid .normalization (arena.node id).parent
          rw [visit_normalization_succ]
          split
          next => exact hoffered
          next current hcurrent =>
              exact hoffered.andThen hcurrent
                (fun heights hlayered hpos => staysBelow_visitChildren ih hlayered hpos) _
      | promotion =>
          rw [visit_promotion_succ]
          exact (staysBelow_visitChildren ih hlayered hid).andThen rfl
            (fun heights hlayered hpos => staysBelow_offer hlayered hpos .promotion _) _

/-- Passes keep an arena layered, and nodes their heights. -/
theorem exists_relayered_passes (hlayered : arena.Layered height) (hroot : 0 < height root)
    (phases : List Phase) :
    ∃ heights, Relayered arena height (arena.passes root phases) heights := by
  induction phases generalizing arena height with
  | nil => exact ⟨height, hlayered.relayered⟩
  | cons phase rest ih =>
      obtain ⟨middle, hfirst, -⟩ :=
        staysBelow_visit phase arena.size root arena height hlayered hroot
      have hkept := hfirst.agrees root (hlayered.inside root hroot)
      obtain ⟨heights, hrest⟩ := ih hfirst.layered (hkept ▸ hroot)
      exact ⟨heights, hfirst.trans hrest⟩

end AstPromotion.Arena
