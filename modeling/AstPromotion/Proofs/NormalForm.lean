import AstPromotion.Proofs.Acyclic
import AstPromotion.Proofs.Unread

/-! # What a settled phase leaves is in normal form

A phase stops after a pass that makes no rewrite. Such a pass writes back the
children that it read, so it finds in every node what it leaves there, and no
rule matches where it offers a node. Without cycles it offers every node that
can be reached, nodes that are shared once for every path.
-/

namespace AstPromotion.Arena

variable {arena : Arena} {root id : Id} {phase : Phase} {height : Id → Nat}

/-! ## Offers on record -/

/-- A node that is offered to the rules, with the arena at that moment and the parent that a
replacement takes over. -/
structure Offer where
  arena : Arena
  subject : Id
  parent : Option Id

/-- What comes of an offer. -/
def Offer.answer (phase : Phase) (offer : Offer) : Visit :=
  offer.arena.offer phase offer.subject offer.parent

/-- The offers made while nodes are visited one after another. -/
def offersEach (visit : Id → Arena → Visit) (offers : Id → Arena → List Offer) (arena : Arena) :
    List Id → List Offer
  | [] => []
  | id :: rest => offers id arena ++ (visit id arena).arena.offersEach visit offers rest

/-- The offers made on the visit of a node, in their order. -/
def offers (phase : Phase) : Nat → Id → Arena → List Offer
  | 0, _, _ => []
  | depth + 1, id, arena =>
    let parent := (arena.node id).parent
    match phase with
    | .normalization =>
      let offered := arena.offer .normalization id parent
      { arena, subject := id, parent } :: match offered.standing with
        | none => []
        | some current =>
          offered.arena.offersEach (visit .normalization depth) (offers .normalization depth)
            (offered.arena.children current)
    | .promotion =>
      let below := arena.visitChildren (visit .promotion depth) id
      arena.offersEach (visit .promotion depth) (offers .promotion depth) (arena.children id) ++
        [{ arena := below.arena, subject := id, parent }]

theorem events_visitEach {visit : Id → Arena → Visit} {offers : Id → Arena → List Offer}
    (hvisit : ∀ id arena, (visit id arena).events =
      (offers id arena).flatMap fun offer => (offer.answer phase).events)
    (arena : Arena) (ids : List Id) :
    (arena.visitEach visit ids).events =
      (arena.offersEach visit offers ids).flatMap fun offer => (offer.answer phase).events := by
  induction ids generalizing arena with
  | nil => rfl
  | cons id rest ih =>
      rw [visitEach, offersEach, List.flatMap_append]
      exact congrArg₂ List.append (hvisit id arena) (ih _)

/-- The rewrites made on a visit are those that the offers on record come to. -/
theorem events_visit (phase : Phase) (depth : Nat) (id : Id) (arena : Arena) :
    (visit phase depth id arena).events =
      (offers phase depth id arena).flatMap fun offer => (offer.answer phase).events := by
  induction depth generalizing id arena with
  | zero => rfl
  | succ depth ih =>
      cases phase with
      | normalization =>
          rw [visit_normalization_succ, offers, List.flatMap_cons, Offer.answer]
          dsimp only
          cases (arena.offer .normalization id (arena.node id).parent).standing with
          | none => exact (List.append_nil _).symm
          | some current => exact congrArg _ (events_visitEach ih _ _)
      | promotion =>
          rw [visit_promotion_succ, offers, List.flatMap_append, List.flatMap_singleton,
            Offer.answer]
          exact congrArg (· ++ _) (events_visitEach ih _ _)

/-! ## Visits that make no rewrite -/

/-- An offer comes to no rewrite only where no rule matches. -/
theorem plan?_of_offer_idle {subject : Id} {parent : Option Id}
    (hidle : (arena.offer phase subject parent).events = []) :
    phase.catalogue.plan? arena.form subject = none ∧
      arena.offer phase subject parent =
        { standing := some subject, arena := arena.prepare phase subject, events := [] } := by
  rw [offer_eq] at hidle ⊢
  cases hplan : phase.catalogue.plan? arena.form subject with
  | none => exact ⟨rfl, rfl⟩
  | some planned =>
      obtain ⟨rule, edit⟩ := planned
      rw [hplan] at hidle
      cases edit <;> cases hidle

/-- A visit makes no rewrite only if no rule matches where it makes an offer. -/
theorem plan?_of_idle {depth : Nat} (hidle : (visit phase depth id arena).events = [])
    {offer : Offer} (hoffer : offer ∈ offers phase depth id arena) :
    phase.catalogue.plan? offer.arena.form offer.subject = none := by
  rw [events_visit, List.flatMap_eq_nil_iff] at hidle
  exact (plan?_of_offer_idle (hidle offer hoffer)).1

/-- A visit that leaves its subject in place and every node with what it holds, from the first offer
to the last. -/
structure Idles (before : Arena) (subject : Id) (visit : Visit) (offers : List Offer) : Prop where
  standing : visit.standing = some subject
  form_eq : visit.arena.form = before.form
  size_eq : visit.arena.size = before.size
  seen : ∀ offer ∈ offers, offer.arena.form = before.form

theorem form_setForm_self (arena : Arena) (id : Id) :
    (arena.setForm id (arena.form id)).form = arena.form := by
  funext other
  rw [form, setForm, node_modify]
  split
  next hsame =>
      obtain ⟨rfl, -⟩ := hsame
      rfl
  next => rfl

section Below

variable {visit : Id → Arena → Visit} {offers : Id → Arena → List Offer}

/-- Visits one after another that make no rewrite: each finds what the first one found. -/
theorem visitEach_of_idle_events
    (hvisit : ∀ id arena, (visit id arena).events = [] →
      Idles arena id (visit id arena) (offers id arena))
    (ids : List Id) (arena : Arena) (hidle : (arena.visitEach visit ids).events = []) :
    (arena.visitEach visit ids).standing = ids.map some ∧
      (arena.visitEach visit ids).arena.form = arena.form ∧
      (arena.visitEach visit ids).arena.size = arena.size ∧
      ∀ offer ∈ arena.offersEach visit offers ids, offer.arena.form = arena.form := by
  induction ids generalizing arena with
  | nil => exact ⟨rfl, rfl, rfl, nofun⟩
  | cons id rest ih =>
      rw [visitEach] at hidle ⊢
      obtain ⟨hfirst_idle, hrest_idle⟩ := List.append_eq_nil_iff.mp hidle
      have hfirst := hvisit id arena hfirst_idle
      obtain ⟨hstanding, hform, hsize, hoffers⟩ := ih _ hrest_idle
      refine ⟨congrArg₂ List.cons hfirst.standing hstanding, hform.trans hfirst.form_eq,
        hsize.trans hfirst.size_eq, fun offer hoffer => ?_⟩
      rcases List.mem_append.mp hoffer with hoffer | hoffer
      · exact hfirst.seen offer hoffer
      · exact (hoffers offer hoffer).trans hfirst.form_eq

/-- Among visits that make no rewrite there is one to each node, in an arena that holds the same as
the first. -/
theorem exists_visit_of_mem
    (hvisit : ∀ id arena, (visit id arena).events = [] →
      Idles arena id (visit id arena) (offers id arena))
    {ids : List Id} (hidle : (arena.visitEach visit ids).events = []) (hid : id ∈ ids) :
    ∃ middle : Arena, middle.form = arena.form ∧ middle.size = arena.size ∧
      (visit id middle).events = [] ∧ offers id middle ⊆ arena.offersEach visit offers ids := by
  induction ids generalizing arena with
  | nil => cases hid
  | cons first rest ih =>
      rw [visitEach] at hidle
      obtain ⟨hfirst_idle, hrest_idle⟩ := List.append_eq_nil_iff.mp hidle
      rw [offersEach]
      rcases List.mem_cons.mp hid with rfl | hid
      · exact ⟨arena, rfl, rfl, hfirst_idle, List.subset_append_left _ _⟩
      · have hfirst := hvisit first arena hfirst_idle
        obtain ⟨middle, hform, hsize, hmiddle, hoffers⟩ := ih hrest_idle hid
        exact ⟨middle, hform.trans hfirst.form_eq, hsize.trans hfirst.size_eq, hmiddle,
          List.subset_append_of_subset_right _ hoffers⟩

/-- A node whose children make no rewrite is written back as it was read. -/
theorem idles_visitChildren
    (hvisit : ∀ id arena, (visit id arena).events = [] →
      Idles arena id (visit id arena) (offers id arena))
    (hidle : (arena.visitChildren visit id).events = []) :
    Idles arena id (arena.visitChildren visit id)
      (arena.offersEach visit offers (arena.children id)) := by
  obtain ⟨hstanding, hform, hsize, hoffers⟩ := visitEach_of_idle_events hvisit _ arena hidle
  rw [visitChildren]
  generalize arena.visitEach visit (arena.children id) = visits at hstanding hform hsize ⊢
  have hrefilled : (visits.arena.form id).refill visits.standing = visits.arena.form id := by
    rw [hstanding, hform, children, Form.refill_children]
  exact {
    standing := rfl
    form_eq := by rw [form_adopt, hrefilled, form_setForm_self, hform]
    size_eq := by rw [size_adopt, size_setForm, hsize]
    seen := hoffers }

end Below

theorem Idles.of_form_eq {before middle : Arena} {subject : Id} {visit : Visit}
    {offers : List Offer} (hidles : Idles middle subject visit offers)
    (hform : middle.form = before.form) (hsize : middle.size = before.size) :
    Idles before subject visit offers where
  standing := hidles.standing
  form_eq := hidles.form_eq.trans hform
  size_eq := hidles.size_eq.trans hsize
  seen offer hoffer := (hidles.seen offer hoffer).trans hform

/-- If it makes no rewrite, normalization visits the children of the node that it was offered. -/
theorem visit_normalization_of_idle {depth : Nat}
    (hidle : (visit .normalization (depth + 1) id arena).events = []) :
    visit .normalization (depth + 1) id arena =
        (arena.prepare .normalization id).visitChildren (visit .normalization depth) id ∧
      offers .normalization (depth + 1) id arena =
        { arena, subject := id, parent := (arena.node id).parent } ::
          (arena.prepare .normalization id).offersEach (visit .normalization depth)
            (offers .normalization depth) ((arena.prepare .normalization id).children id) := by
  have hoffered : (arena.offer .normalization id (arena.node id).parent).events = [] := by
    rw [visit_normalization_succ] at hidle
    split at hidle
    next => exact hidle
    next => exact (List.append_eq_nil_iff.mp hidle).1
  obtain ⟨-, hoffer⟩ := plan?_of_offer_idle hoffered
  rw [visit_normalization_succ, offers]
  simp only [hoffer, List.nil_append, and_true]

/-- A visit without a rewrite leaves everything as it found it, in either order of visiting. -/
theorem idles_visit (phase : Phase) (depth : Nat) (id : Id) (arena : Arena)
    (hidle : (visit phase depth id arena).events = []) :
    Idles arena id (visit phase depth id arena) (offers phase depth id arena) := by
  induction depth generalizing id arena with
  | zero => exact ⟨rfl, rfl, rfl, nofun⟩
  | succ depth ih =>
      cases phase with
      | normalization =>
          obtain ⟨hvisit, hoffers⟩ := visit_normalization_of_idle hidle
          rw [hvisit] at hidle
          have hbelow := (idles_visitChildren ih hidle).of_form_eq
            (form_prepare arena .normalization id) (size_prepare arena .normalization id)
          rw [hvisit, hoffers]
          exact { hbelow with seen := List.forall_mem_cons.mpr ⟨rfl, hbelow.seen⟩ }
      | promotion =>
          rw [visit_promotion_succ] at hidle
          obtain ⟨hbelow_idle, hoffered⟩ := List.append_eq_nil_iff.mp hidle
          have hbelow := idles_visitChildren ih hbelow_idle
          obtain ⟨-, hoffer⟩ := plan?_of_offer_idle hoffered
          rw [visit_promotion_succ, offers]
          simp only [hoffer]
          exact {
            standing := rfl
            form_eq := hbelow.form_eq
            size_eq := hbelow.size_eq
            seen := List.forall_mem_append.mpr
              ⟨hbelow.seen, List.forall_mem_singleton.mpr hbelow.form_eq⟩ }

/-! ## Every node is offered -/

theorem Reaches.of_form_eq {other : Arena} {last : Id} (hreaches : arena.Reaches id last)
    (hform : other.form = arena.form) : other.Reaches id last := by
  induction hreaches with
  | root => exact .root
  | child _ hchild ih =>
      refine ih.child ?_
      rwa [children, hform]

/-- A visit without a rewrite that may go as deep as the nodes are high offers all of them. -/
theorem exists_offer (phase : Phase) {depth : Nat} (hdepth : height id ≤ depth)
    (hlayered : arena.Layered height) (hid : 0 < height id)
    (hidle : (visit phase depth id arena).events = []) {other : Id}
    (hreaches : arena.Reaches id other) :
    ∃ offer ∈ offers phase depth id arena, offer.subject = other := by
  induction depth generalizing id arena with
  | zero => exact absurd hid (Nat.not_lt_of_le hdepth)
  | succ depth ih =>
      -- What is below a child is offered when the child is visited.
      have hbelow {start : Arena} (hform : start.form = arena.form) (hsize : start.size = arena.size)
          (hstart : (start.visitChildren (visit phase depth) id).events = []) {child : Id}
          (hchild : child ∈ arena.children id) (hother : arena.Reaches child other) :
          ∃ offer ∈ start.offersEach (visit phase depth) (offers phase depth) (start.children id),
            offer.subject = other := by
        obtain ⟨hpos, hless⟩ := hlayered.below id hid child hchild
        have hmem : child ∈ start.children id := by rwa [children, hform]
        obtain ⟨middle, hmiddle, hmiddle_size, hquiet, hsubset⟩ :=
          exists_visit_of_mem (idles_visit phase depth) hstart hmem
        obtain ⟨offer, hoffer, hsubject⟩ := ih (Nat.le_of_lt_succ (hless.trans_le hdepth))
          (hlayered.of_form_eq (hmiddle_size.trans hsize) (hmiddle.trans hform)) hpos hquiet
          (hother.of_form_eq (hmiddle.trans hform))
        exact ⟨offer, hsubset hoffer, hsubject⟩
      cases phase with
      | normalization =>
          obtain ⟨hvisit, hoffers⟩ := visit_normalization_of_idle hidle
          rw [hvisit] at hidle
          rw [hoffers]
          rcases hreaches.eq_or_exists_child with rfl | ⟨child, hchild, hother⟩
          · exact ⟨_, List.mem_cons_self, rfl⟩
          · obtain ⟨offer, hoffer, hsubject⟩ :=
              hbelow (form_prepare arena .normalization id) (size_prepare arena .normalization id)
                hidle hchild hother
            exact ⟨offer, List.mem_cons_of_mem _ hoffer, hsubject⟩
      | promotion =>
          rw [visit_promotion_succ] at hidle
          rw [offers]
          rcases hreaches.eq_or_exists_child with rfl | ⟨child, hchild, hother⟩
          · exact ⟨_, List.mem_append_right _ List.mem_cons_self, rfl⟩
          · obtain ⟨offer, hoffer, hsubject⟩ :=
              hbelow rfl rfl (List.append_eq_nil_iff.mp hidle).1 hchild hother
            exact ⟨offer, List.mem_append_left _ hoffer, hsubject⟩

/-! ## Runs that settle -/

/-- A run that settles ends with a pass that makes no rewrite. -/
theorem pass_of_settled {limit : Nat} (hsettled : (arena.settle phase root limit).settled = true) :
    ∃ earlier, (arena.settle phase root limit).passes = earlier + 1 ∧
      (arena.passes root (List.replicate earlier phase)).pass phase root =
        ([], (arena.settle phase root limit).arena) := by
  induction limit generalizing arena with
  | zero => cases hsettled
  | succ limit ih =>
      simp only [settle] at hsettled ⊢
      split at hsettled
      next hidle =>
          rw [if_pos hidle]
          exact ⟨0, rfl, Prod.ext (List.isEmpty_iff.mp hidle) rfl⟩
      next hbusy =>
          obtain ⟨earlier, hpasses, hpass⟩ := ih hsettled
          rw [if_neg hbusy]
          exact ⟨earlier + 1, congrArg (· + 1) hpasses, hpass⟩

/-- What a pass that made no rewrite has shown: it left every node with what it held, it offered
every node that can be reached, and no rule of the phase matches any of them. -/
structure NormalForm (phase : Phase) (root : Id) (last after : Arena) : Prop where
  idle : last.pass phase root = ([], after)
  form_eq : after.form = last.form
  size_eq : after.size = last.size
  offered : ∀ id, after.Reaches root id →
    ∃ offer ∈ offers phase last.size root last, offer.subject = id ∧ offer.arena.form = after.form
  unmatched : ∀ id, after.Reaches root id →
    ∀ rule ∈ phase.catalogue, rule.plan? after.form id = none

/-- If a phase succeeds on a program without cycles, then no rule of the phase matches in what it
leaves: its last pass offered every node that can be reached, and changed none. -/
theorem normalForm_of_runPhase {before : Arena} {config : Config} {stats : Stats}
    (hacyclic : before.Acyclic root)
    (hok : (before.runPhase config phase root).outcome = .ok stats) :
    ∃ earlier, stats.passes = earlier + 1 ∧
      NormalForm phase root (before.passes root (List.replicate earlier phase))
        (before.runPhase config phase root).arena := by
  obtain ⟨hkind, hsettled, -⟩ := settled_of_runPhase_eq_ok hok
  obtain ⟨houtcome, harena⟩ := runPhase_of_settled config hkind hsettled (Nat.le_refl _)
  obtain rfl := Except.ok.inj (houtcome.symm.trans hok)
  obtain ⟨earlier, hpasses, hpass⟩ := pass_of_settled hsettled
  refine ⟨earlier, hpasses, ?_⟩
  rw [harena]
  have hroot : 0 < before.extent root root := hacyclic.extent_pos_iff.mpr .root
  obtain ⟨height, hrelayered⟩ :=
    exists_relayered_passes hacyclic.layered hroot (List.replicate earlier phase)
  have hkept := hrelayered.agrees root (hacyclic.inside root .root)
  have hdepth := hkept.le.trans ((before.extent_le root root).trans hrelayered.size_le)
  -- From here on only the last pass matters.
  generalize before.passes root (List.replicate earlier phase) = last at *
  generalize (before.settle phase root (before.limit config)).arena = after at *
  obtain ⟨hidle, hafter⟩ := Prod.mk.inj hpass
  have hidles := idles_visit phase last.size root last hidle
  have hform : after.form = last.form := hafter ▸ hidles.form_eq
  have hoffered {id : Id} (hreaches : after.Reaches root id) :=
    exists_offer phase hdepth hrelayered.layered (hkept ▸ hroot) hidle
      (hreaches.of_form_eq hform.symm)
  exact {
    idle := hpass
    form_eq := hform
    size_eq := hafter ▸ hidles.size_eq
    offered := by
      intro id hreaches
      obtain ⟨offer, hoffer, hsubject⟩ := hoffered hreaches
      exact ⟨offer, hoffer, hsubject, (hidles.seen offer hoffer).trans hform.symm⟩
    unmatched := by
      intro id hreaches rule hrule
      obtain ⟨offer, hoffer, rfl⟩ := hoffered hreaches
      have hunmatched := plan?_of_idle hidle hoffer
      rw [hidles.seen offer hoffer, ← hform, Catalogue.plan?,
        List.findSome?_eq_none_iff] at hunmatched
      exact Option.map_eq_none_iff.mp (hunmatched rule hrule) }

/-- A program whose two statements are one node, a wrapper around a name that was not read yet. -/
def sharedStatement : Arena where
  nodes := #[
    { form := .leaf (.literal .identifier) (.raw "x") },
    { form := .group (.provisional .expression) [0], parent := some 2 },
    { form := .group (.program "main" true) [1, 1] }]

/-- The wrapper goes in one pass, wherever it stands, and the name is read in the next. -/
theorem normalForm_sharedStatement :
    sharedStatement.Acyclic 2 ∧
      (sharedStatement.runPhase {} .normalization 2).outcome = .ok { passes := 3, rewrites := 3 } ∧
        ∃ earlier, 3 = earlier + 1 ∧
          NormalForm .normalization 2
            (sharedStatement.passes 2 (List.replicate earlier .normalization))
            (sharedStatement.runPhase {} .normalization 2).arena := by
  have hacyclic : sharedStatement.Acyclic 2 := acyclic_of_lt (by decide) (by decide)
  have hok : (sharedStatement.runPhase {} .normalization 2).outcome =
      .ok { passes := 3, rewrites := 3 } := by rfl
  exact ⟨hacyclic, hok, normalForm_of_runPhase hacyclic hok⟩

end AstPromotion.Arena
