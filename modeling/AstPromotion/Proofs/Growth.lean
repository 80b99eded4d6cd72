import AstPromotion.Proofs.Exactness
import AstPromotion.Proofs.Simulation

/-! # How an arena grows

Nodes are allocated for constructs only, and one construct is built at a time.
So build times, kinds and positions agree about what is new, whatever else the
rules do to the arena, and however the optimization ends.
-/

namespace AstPromotion

/-! ## Rules that build -/

/-- Whether the outcome is a new construct. -/
def Outcome.builds : Outcome → Bool
  | .build _ | .buildClass _ _ => true
  | _ => false

def Edit.builds {α : Type} : Edit α → Bool
  | .build _ _ => true
  | _ => false

/-- The names of the rules of a phase that build constructs. -/
def Phase.builders (phase : Phase) : List String :=
  (phase.catalogue.filter fun rule => rule.shapes.any (·.outcome.builds)).map (·.name)

section Plans

variable {α : Type} {look : α → Form α} {subject : α} {edit : Edit α}

theorem Outcome.builds_of_plan? {outcome : Outcome}
    (hplan : outcome.plan? look subject = some edit) : edit.builds = outcome.builds := by
  cases outcome with
  | coerce read =>
      rw [plan?] at hplan
      split at hplan
      next =>
          obtain ⟨value, -, rfl⟩ := Option.map_eq_some_iff.mp hplan
          rfl
      next => cases hplan
  | lift position =>
      obtain ⟨child, -, rfl⟩ := Option.map_eq_some_iff.mp hplan
      rfl
  | remove =>
      obtain rfl := Option.some.inj hplan
      rfl
  | build template =>
      obtain ⟨form, -, rfl⟩ := Option.map_eq_some_iff.mp hplan
      rfl
  | buildClass name body =>
      obtain ⟨_, -, hplan⟩ := Option.bind_eq_some_iff.mp hplan
      obtain ⟨_, -, hplan⟩ := Option.bind_eq_some_iff.mp hplan
      obtain rfl := Option.some.inj hplan
      obtain ⟨form, relisted, hbuild⟩ := Promotion.exists_planClass_eq look _ _
      rw [hbuild]
      rfl

/-- Either every shape of a rule builds a construct or none does, so its name tells which. -/
theorem Phase.builds_eq (phase : Phase) :
    ∀ rule ∈ phase.catalogue, ∀ shape ∈ rule.shapes,
      shape.outcome.builds = phase.builders.contains rule.name := by
  cases phase <;> decide

theorem builds_of_plan? {phase : Phase} {rule : String}
    (hplan : phase.catalogue.plan? look subject = some (rule, edit)) :
    edit.builds = phase.builders.contains rule := by
  obtain ⟨found, hfound, rfl, hrule⟩ := Catalogue.exists_of_plan? hplan
  obtain ⟨-, shape, hshape, -, houtcome⟩ := Rule.exists_of_plan? hrule
  rw [Outcome.builds_of_plan? houtcome, phase.builds_eq found hfound shape hshape]

/-- What a phase builds is a construct. -/
theorem exists_kind_of_plan? {phase : Phase} {rule : String} {form : Form α}
    {relisted : Option (α × List α)}
    (hplan : phase.catalogue.plan? look subject = some (rule, .build form relisted)) :
    ∃ construct, form.kind = .construct construct := by
  cases phase with
  | normalization => nomatch Normalization.step_of_plan? hplan
  | promotion => exact Promotion.exists_kind_of_step (Promotion.step_of_plan? hplan)

end Plans

/-- What promotion lifts is not a block. -/
theorem Promotion.kind_ne_block_of_step_lift {α : Type} {look : α → Form α} {subject child : α}
    (hstep : Step look subject (.lift child)) : (look child).kind ≠ .group .block := by
  generalize hedit : Edit.lift child = edit at hstep
  intro hkind
  cases hstep with
  | unwrapIf _ _ hchild =>
      cases hedit
      rw [hkind] at hchild
      revert hchild
      decide
  | unwrapSettled _ _ hchild =>
      cases hedit
      rw [hkind] at hchild
      cases hchild
  | classLiteral =>
      obtain ⟨form, relisted, hbuild⟩ := exists_planClass_eq look _ _
      rw [hbuild] at hedit
      cases hedit
  | _ => cases hedit

/-- How many of the rewrites that a phase made were made by rules that build constructs. -/
def Phase.built (phase : Phase) (events : List Event) : Nat :=
  events.countP fun event => phase.builders.contains event.rule

theorem Phase.built_append (phase : Phase) (first second : List Event) :
    phase.built (first ++ second) = phase.built first + phase.built second :=
  List.countP_append

namespace Arena

/-! ## Changes that allocate nothing -/

/-- Whether an arena has the same nodes as before as far as their number, kinds and build times
go. -/
structure Still (before after : Arena) : Prop where
  size_eq : after.size = before.size
  kind_eq : ∀ id, after.kind id = before.kind id
  buildTime_eq : ∀ id, (after.node id).buildTime = (before.node id).buildTime

variable {arena before middle after : Arena} {id : Id}

theorem Still.refl (arena : Arena) : Still arena arena :=
  ⟨rfl, fun _ => rfl, fun _ => rfl⟩

theorem Still.trans (hfirst : Still before middle) (hsecond : Still middle after) :
    Still before after where
  size_eq := hsecond.size_eq.trans hfirst.size_eq
  kind_eq id := (hsecond.kind_eq id).trans (hfirst.kind_eq id)
  buildTime_eq id := (hsecond.buildTime_eq id).trans (hfirst.buildTime_eq id)

theorem still_modify {change : Node → Node}
    (hkind : (change (arena.node id)).form.kind = arena.kind id)
    (htime : (change (arena.node id)).buildTime = (arena.node id).buildTime) :
    Still arena (arena.modify id change) where
  size_eq := arena.size_modify id change
  kind_eq other := by
    rw [kind, form, node_modify]
    split
    next hsame =>
        obtain ⟨rfl, -⟩ := hsame
        exact hkind
    next => rfl
  buildTime_eq other := by
    rw [node_modify]
    split
    next hsame =>
        obtain ⟨rfl, -⟩ := hsame
        exact htime
    next => rfl

theorem still_setForm {form : Form Id} (hkind : form.kind = arena.kind id) :
    Still arena (arena.setForm id form) :=
  still_modify hkind rfl

theorem still_setParent (arena : Arena) (id : Id) (parent : Option Id) :
    Still arena (arena.setParent id parent) :=
  still_modify rfl rfl

theorem still_adopt (arena : Arena) (holder : Id) : Still arena (arena.adopt holder) := by
  have heach (children : List Id) (start : Arena) : Still start
      (children.foldl (fun arena child => arena.setParent child (some holder)) start) := by
    induction children generalizing start with
    | nil => exact Still.refl start
    | cons child rest ih => exact (still_setParent start child _).trans (ih _)
  exact heach _ arena

theorem still_prepare (arena : Arena) (phase : Phase) (subject : Id) :
    Still arena (arena.prepare phase subject) := by
  cases phase with
  | normalization => exact still_adopt arena subject
  | promotion => exact Still.refl arena

theorem still_regroup (arena : Arena) (relisted : Option (Id × List Id)) :
    Still arena (arena.regroup relisted) := by
  cases relisted with
  | none => exact Still.refl arena
  | some given => exact still_setForm (Form.kind_mapItems _ _)

/-! ## Changes that build constructs -/

/-- How an arena grows by a number of constructs: nodes that were there keep their kinds, and the
new ones are constructs. -/
structure GrownBy (built : Nat) (before after : Arena) : Prop extends Grown before after where
  size_eq : after.size = before.size + built
  kind_eq : ∀ id < before.size, after.kind id = before.kind id
  constructs : ∀ id, before.size ≤ id → id < after.size →
    ∃ construct, after.kind id = .construct construct

theorem Still.grownBy (hstill : Still before after) : GrownBy 0 before after where
  toGrown := Grown.of_size_eq hstill.size_eq hstill.buildTime_eq
  size_eq := hstill.size_eq
  kind_eq id _ := hstill.kind_eq id
  constructs _ hnew hid := absurd hid (hstill.size_eq ▸ Nat.not_lt_of_le hnew)

theorem GrownBy.trans {first second : Nat} (hfirst : GrownBy first before middle)
    (hsecond : GrownBy second middle after) : GrownBy (first + second) before after where
  toGrown := hfirst.toGrown.trans hsecond.toGrown
  size_eq := by rw [hsecond.size_eq, hfirst.size_eq, Nat.add_assoc]
  kind_eq id hid := by
    rw [hsecond.kind_eq id (Nat.lt_of_lt_of_le hid hfirst.size_le), hfirst.kind_eq id hid]
  constructs id hnew hid := by
    by_cases hmiddle : id < middle.size
    · rw [hsecond.kind_eq id hmiddle]
      exact hfirst.constructs id hnew hmiddle
    · exact hsecond.constructs id (Nat.le_of_not_lt hmiddle) hid

theorem GrownBy.still {built : Nat} (hgrown : GrownBy built before middle)
    (hstill : Still middle after) : GrownBy built before after :=
  hgrown.trans hstill.grownBy

theorem Still.then_grownBy {built : Nat} (hstill : Still before middle)
    (hgrown : GrownBy built middle after) : GrownBy built before after := by
  have hboth := hstill.grownBy.trans hgrown
  rwa [Nat.zero_add] at hboth

theorem grownBy_build (arena : Arena) {form : Form Id} {construct : Construct}
    (hform : form.kind = .construct construct) :
    GrownBy 1 arena ((arena.promote form).2.setBuildTime arena.size 0) := by
  have hsize := size_promote arena form
  -- Adoption comes after the allocation and touches neither kinds nor times.
  have hadopted : Still (arena.alloc form).2 (arena.promote form).2 := still_adopt _ _
  have hinside : arena.size < (arena.promote form).2.size := by
    rw [hsize]
    exact Nat.lt_succ_self _
  have hnode := node_setBuildTime (arena.promote form).2 hinside 0
  have hkind (id : Id) : ((arena.promote form).2.setBuildTime arena.size 0).kind id =
      if id = arena.size then form.kind else arena.kind id := by
    have hsame : ((arena.promote form).2.setBuildTime arena.size 0).kind id =
        (arena.promote form).2.kind id := by
      rw [kind, Arena.form, hnode]
      split <;> rfl
    rw [hsame, hadopted.kind_eq, kind, Arena.form, node_alloc]
    split <;> rfl
  have htime (id : Id) :
      (((arena.promote form).2.setBuildTime arena.size 0).node id).buildTime =
        if id = arena.size then some 0 else (arena.node id).buildTime := by
    rw [hnode]
    split
    next => rfl
    next hne => rw [hadopted.buildTime_eq, node_alloc, if_neg hne]
  exact {
    size_le := by
      rw [size_setBuildTime, hsize]
      exact Nat.le_succ _
    times := by
      intro id
      rw [htime, size_setBuildTime, hsize, (Grown.refl arena).times id]
      rcases Nat.lt_trichotomy id arena.size with hold | rfl | hpast
      · rw [if_neg (Nat.ne_of_lt hold)]
        simp [hold]
      · simp
      · rw [if_neg (Nat.ne_of_gt hpast)]
        simp [Nat.not_lt_of_lt hpast, Nat.not_lt_of_le (Nat.succ_le_of_lt hpast)]
    size_eq := by rw [size_setBuildTime, hsize]
    kind_eq := by
      intro id hid
      rw [hkind, if_neg (Nat.ne_of_lt hid)]
    constructs := by
      intro id hnew hid
      rw [size_setBuildTime, hsize] at hid
      rw [hkind, if_pos (Nat.le_antisymm (Nat.le_of_lt_succ hid) hnew)]
      exact ⟨construct, hform⟩ }

/-! ## Rewriting, visits and runs -/

/-- Carrying out a change adds the construct that it builds, if it builds one. -/
theorem grownBy_carryOut (arena : Arena) (subject : Id) (parent : Option Id) (rule : String)
    (edit : Edit Id) (hbuild : ∀ form relisted, edit = .build form relisted →
      ∃ construct, form.kind = .construct construct) :
    GrownBy (if edit.builds then 1 else 0) arena
      (arena.carryOut subject parent rule edit).arena := by
  cases edit with
  | coerce value => exact (still_setForm (Form.kind_withValue value _)).grownBy
  | lift child => exact (still_setParent arena child parent).grownBy
  | remove => exact (Still.refl arena).grownBy
  | build form relisted =>
      obtain ⟨construct, hform⟩ := hbuild form relisted rfl
      exact ((still_regroup arena relisted).then_grownBy (grownBy_build _ hform)).still
        (still_setParent _ _ parent)

theorem built_carryOut (phase : Phase) (arena : Arena) (subject : Id) (parent : Option Id)
    (rule : String) (edit : Edit Id) :
    phase.built (arena.carryOut subject parent rule edit).events =
      if phase.builders.contains rule then 1 else 0 := by
  cases edit <;> exact List.countP_singleton

/-- A visit of a phase adds the constructs that its rewrites built. -/
def Grows (phase : Phase) (before : Arena) (visit : Visit) : Prop :=
  GrownBy (phase.built visit.events) before visit.arena

theorem grows_offer (arena : Arena) (phase : Phase) (subject : Id) (parent : Option Id) :
    Grows phase arena (arena.offer phase subject parent) := by
  have hprepare := still_prepare arena phase subject
  rw [offer_eq]
  cases hplan : phase.catalogue.plan? arena.form subject with
  | none => exact hprepare.grownBy
  | some planned =>
      obtain ⟨rule, edit⟩ := planned
      have hgrown := grownBy_carryOut (arena.prepare phase subject) subject parent rule edit
        fun form relisted hedit => exists_kind_of_plan? (hedit ▸ hplan)
      rw [builds_of_plan? hplan, ← built_carryOut] at hgrown
      exact hprepare.then_grownBy hgrown

theorem grownBy_visitEach {phase : Phase} {visit : Id → Arena → Visit}
    (hvisit : ∀ id arena, Grows phase arena (visit id arena)) (ids : List Id) (arena : Arena) :
    GrownBy (phase.built (arena.visitEach visit ids).events) arena
      (arena.visitEach visit ids).arena := by
  induction ids generalizing arena with
  | nil => exact (Still.refl arena).grownBy
  | cons id rest ih =>
      rw [visitEach]
      dsimp only
      rw [Phase.built_append]
      exact (hvisit id arena).trans (ih _)

theorem grows_visitChildren {phase : Phase} {visit : Id → Arena → Visit}
    (hvisit : ∀ id arena, Grows phase arena (visit id arena)) (arena : Arena) (id : Id) :
    Grows phase arena (arena.visitChildren visit id) :=
  ((grownBy_visitEach hvisit _ arena).still (still_setForm (Form.kind_refill _ _))).still
    (still_adopt _ id)

theorem grows_visit (phase : Phase) (depth : Nat) (id : Id) (arena : Arena) :
    Grows phase arena (visit phase depth id arena) := by
  induction depth generalizing id arena with
  | zero => exact (Still.refl arena).grownBy
  | succ depth ih =>
      cases phase with
      | normalization =>
          have hoffered := grows_offer arena .normalization id (arena.node id).parent
          rw [visit_normalization_succ]
          split
          next => exact hoffered
          next current _ =>
              rw [Grows]
              dsimp only
              rw [Phase.built_append]
              exact hoffered.trans (grows_visitChildren ih _ current)
      | promotion =>
          have hvisited := grows_visitChildren ih arena id
          rw [visit_promotion_succ, Grows]
          dsimp only
          rw [Phase.built_append]
          exact hvisited.trans (grows_offer _ .promotion id _)

theorem grownBy_settle (phase : Phase) (root : Id) (limit : Nat) (arena : Arena) :
    GrownBy (phase.built (arena.settle phase root limit).events) arena
      (arena.settle phase root limit).arena := by
  induction limit generalizing arena with
  | zero => exact (Still.refl arena).grownBy
  | succ limit ih =>
      have hpass : GrownBy (phase.built (arena.pass phase root).1) arena
        (arena.pass phase root).2 := grows_visit phase arena.size root arena
      rw [settle]
      cases hidle : (arena.pass phase root).1.isEmpty with
      | true =>
          rw [List.isEmpty_iff.mp hidle] at hpass
          simp only [hidle, if_pos]
          exact hpass
      | false =>
          simp only [hidle, Bool.false_eq_true, if_false, Phase.built_append]
          exact hpass.trans (ih _)

end Arena

/-! ## Optimization -/

/-- Whether a record is of a rewrite in promotion whose rule builds a construct. -/
def Record.builds : Record → Bool
  | rewrote .promotion event => Phase.promotion.builders.contains event.rule
  | _ => false

/-- The log counts the constructs of a phase as its events do; normalization builds none. -/
theorem countP_builds_rewrote (phase : Phase) (events : List Event) :
    (events.map (.rewrote phase)).countP Record.builds = phase.built events := by
  rw [List.countP_map, Phase.built]
  cases phase <;> rfl

/-- An operation adds the constructs that it has on record. -/
def Attempt.Grows {α : Type} (before : Arena) (attempt : Attempt α) : Prop :=
  Arena.GrownBy (attempt.log.countP Record.builds) before attempt.arena

theorem Attempt.grows_andThen {α β : Type} {before : Arena} {attempt : Attempt α}
    {next : α → Arena → Attempt β} (hattempt : attempt.Grows before)
    (hnext : ∀ result arena, (next result arena).Grows arena) :
    (attempt.andThen next).Grows before := by
  rw [Attempt.andThen]
  split
  next => exact hattempt
  next result _ =>
      rw [Attempt.Grows]
      dsimp only
      rw [List.countP_append]
      exact hattempt.trans (hnext result attempt.arena)

namespace Arena

theorem grows_runPhase (arena : Arena) (config : Config) (phase : Phase) (root : Id) :
    (arena.runPhase config phase root).Grows arena := by
  rw [runPhase]
  split
  next => exact (Still.refl arena).grownBy
  next =>
      have hsettle := grownBy_settle phase root (config.maxPasses.getD arena.patience) arena
      rw [← countP_builds_rewrote] at hsettle
      dsimp only
      split
      next =>
          rw [Attempt.Grows]
          dsimp only
          rw [List.countP_append]
          exact hsettle
      next => exact hsettle

/-- However an optimization ends, the arena has grown by the constructs on record. -/
theorem grows_optimize (arena : Arena) (root : Id) (config : Config) :
    (arena.optimize root config).Grows arena := by
  rw [optimize]
  split
  next => exact (Still.refl arena).grownBy
  next =>
      refine Attempt.grows_andThen (grows_runPhase arena config .normalization root) ?_
      intro _ middle
      refine Attempt.grows_andThen (grows_runPhase middle config .promotion root) ?_
      exact fun _ after => (Still.refl after).grownBy

/-! ## Build times -/

/-- An id out of range stands for an empty block, which is not lifted. -/
theorem lt_size_of_step_lift {arena : Arena} {subject child : Id}
    (hstep : Promotion.Step arena.form subject (.lift child)) : child < arena.size := by
  by_contra houtside
  have hkind := Promotion.kind_ne_block_of_step_lift hstep
  rw [Arena.form, arena.node_of_size_le (Nat.le_of_not_lt houtside)] at hkind
  exact hkind rfl

/-- What promotion puts in a node's place is a new node if and only if the rule builds constructs:
what is lifted was there before. So a build time goes to the same nodes whether it is the edit or
the id that tells them. -/
theorem size_le_iff_of_rewrite {arena after : Arena} {subject replacement : Id} {rule : String}
    (hrewrite : arena.rewrite .promotion subject =
      (some { rule, rewrite := .replace replacement }, after)) :
    arena.size ≤ replacement ↔ Phase.promotion.builders.contains rule = true := by
  rw [rewrite] at hrewrite
  dsimp only at hrewrite
  split at hrewrite
  next => cases hrewrite
  next planned edit hplan =>
      obtain ⟨hfiring, -⟩ := Prod.mk.inj hrewrite
      obtain ⟨rfl, hresult⟩ := Firing.mk.inj (Option.some.inj hfiring)
      rw [← builds_of_plan? hplan]
      cases edit with
      | coerce value =>
          rw [enact_coerce] at hresult
          cases hresult
      | remove => cases hresult
      | lift child =>
          obtain rfl : child = replacement := Rewrite.replace.inj hresult
          have hinside := lt_size_of_step_lift (Promotion.step_of_plan? hplan)
          exact iff_of_false (Nat.not_le_of_lt hinside) Bool.false_ne_true
      | build form relisted =>
          have hnew : replacement = (arena.regroup relisted).size := by
            cases relisted <;> exact (Rewrite.replace.inj hresult).symm
          rw [hnew, (still_regroup arena relisted).size_eq]
          exact iff_of_true (Nat.le_refl _) rfl

/-- Whether build times, kinds and positions agree about what is new. -/
structure Timed (before after : Arena) (log : List Record) : Prop where
  size_eq : after.size = before.size + log.countP Record.builds
  new_iff : ∀ id < after.size, (after.node id).buildTime.isSome = true ↔ before.size ≤ id
  construct_iff : ∀ id, (after.node id).buildTime.isSome = true ↔
    ∃ construct, after.kind id = .construct construct

theorem Exact.timed {root : Id} {file : String} {log : List Record}
    (hexact : before.Exact root file)
    (hgrown : GrownBy (log.countP Record.builds) before after) : Timed before after log := by
  have hsome (id : Id) : (after.node id).buildTime.isSome = true ↔
      before.size ≤ id ∧ id < after.size := by
    rw [hgrown.times, hexact.untimed]
    split
    next hold => exact iff_of_false Bool.false_ne_true fun hnew => Nat.not_lt_of_le hnew.1 hold
    next hnew =>
        split
        next hid => exact iff_of_true rfl ⟨Nat.le_of_not_lt hnew, hid⟩
        next hout => exact iff_of_false Bool.false_ne_true fun hid => hout hid.2
  exact {
    size_eq := hgrown.size_eq
    new_iff := fun id hid => (hsome id).trans (and_iff_left hid)
    construct_iff := by
      intro id
      rw [hsome]
      constructor
      · exact fun ⟨hnew, hid⟩ => hgrown.constructs id hnew hid
      · rintro ⟨construct, hkind⟩
        refine ⟨Nat.le_of_not_lt fun hold => ?_, Nat.lt_of_not_le fun hout => ?_⟩
        · rw [hgrown.kind_eq id hold] at hkind
          exact hexact.shallow id construct hkind
        · rw [kind, form, after.node_of_size_le hout] at hkind
          cases hkind }

end Arena

/-- Build times mark the constructs. However the optimization of a text that was read ends, the
nodes with a build time are those that came after the text was read, they are the constructs, and
there is one for each rewrite on record whose rule builds a construct. -/
theorem timed_of_parse {file source : String} {root : Id} {before : Arena}
    (hparse : parseSource file source = .ok (root, before)) (config : Config) :
    Arena.Timed before (before.optimize root config).arena (before.optimize root config).log := by
  obtain ⟨sketch, -, hplant⟩ := exists_of_parseSource hparse
  exact (Arena.exact_of_plant hplant).timed (before.grows_optimize root config)

/-- A conditional that is unwrapped once it has been built, and a statement that nothing is made
of. -/
def rejectedConditional : String :=
  "(Program (Statement (IfStatementPrimitive if '(' a ')' '\x7b' (Block) '\x7d')) (Statement 5 5))"

theorem timed_of_parse_rejectedConditional :
    ∃ root before, parseSource "main" rejectedConditional = .ok (root, before) ∧
      Arena.Timed before (before.optimize root {}).arena (before.optimize root {}).log ∧
        (before.optimize root {}).outcome.isOk = false ∧
          (before.optimize root {}).log.countP Record.builds = 1 := by
  obtain ⟨root, before, hparse, hrejected, hbuilt⟩ :
      ∃ root before, parseSource "main" rejectedConditional = .ok (root, before) ∧
        (before.optimize root {}).outcome.isOk = false ∧
          (before.optimize root {}).log.countP Record.builds = 1 :=
    exists_of_any_parseSource (by decide +kernel)
  exact ⟨root, before, hparse, timed_of_parse hparse {}, hrejected, hbuilt⟩

end AstPromotion
