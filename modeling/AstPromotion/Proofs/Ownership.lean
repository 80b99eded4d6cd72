import AstPromotion.Proofs.Passes

/-! # Who holds what

Whatever parent references were left behind, one pass over a program sets them
right: what is reachable is a tree, and every node in it names its only holder.
Nodes that were given up may still point into the tree, but nothing in it is
reached through them.
-/

namespace AstPromotion.Arena

/-- What is reachable from the root is a tree in which every child names its holder. -/
structure Owned (arena : Arena) (root : Id) : Prop where
  tree : arena.IsTree root
  linked : ∀ id, arena.Reaches root id → ∀ child ∈ arena.children id,
    (arena.node child).parent = some id

theorem owned_of_bears {arena : Arena} {term : Term Id} (hbears : arena.Bears term)
    (hlinked : arena.Linked term) : arena.Owned term.label where
  tree := hbears.isTree
  linked id hreaches child hchild := by
    obtain ⟨inner, hinner, rfl⟩ := List.mem_map.mp (hbears.reaches_iff.mp hreaches)
    rw [(hbears.holds.of_mem hinner).children_eq] at hchild
    obtain ⟨below, hbelow, rfl⟩ := List.mem_map.mp hchild
    exact hlinked inner hinner below hbelow

namespace Owned

variable {arena : Arena} {root : Id}

/-- No two nodes hold the same child. -/
theorem holder_unique (howned : arena.Owned root) {first second child : Id}
    (hfirst : arena.Reaches root first) (hsecond : arena.Reaches root second)
    (hchild : child ∈ arena.children first) (hchild' : child ∈ arena.children second) :
    first = second := by
  have hparent := howned.linked first hfirst child hchild
  rw [howned.linked second hsecond child hchild'] at hparent
  exact (Option.some.inj hparent).symm

/-- No node holds itself. -/
theorem not_mem_children_self (howned : arena.Owned root) {id : Id}
    (hreaches : arena.Reaches root id) : id ∉ arena.children id := by
  obtain ⟨term, rfl, hbears⟩ := howned.tree.exists_bears
  obtain ⟨inner, hinner, rfl⟩ := List.mem_map.mp (hbears.reaches_iff.mp hreaches)
  rw [(hbears.holds.of_mem hinner).children_eq]
  intro hmem
  obtain ⟨child, hchild, heq⟩ := List.mem_map.mp hmem
  have hnodup := hbears.nodup.sublist (Term.labels_sublist_of_mem_subterms hinner)
  rw [Term.labels_eq, List.nodup_cons] at hnodup
  exact hnodup.1 (List.mem_flatMap.mpr ⟨child, hchild, heq ▸ child.label_mem_labels⟩)

/-- What a node holds, no other child of that node holds. -/
theorem not_mem_children_of_sibling (howned : arena.Owned root) {id child sibling : Id}
    (hreaches : arena.Reaches root id) (hchild : child ∈ arena.children id)
    (hsibling : sibling ∈ arena.children id) : child ∉ arena.children sibling := by
  intro hmem
  have heq := howned.holder_unique hreaches (hreaches.child hsibling) hchild hmem
  exact howned.not_mem_children_self hreaches (heq ▸ hsibling)

end Owned

/-- What passes over a program leave behind: the program itself as it was, and below it a tree with
its links set right. In particular, what a rule took out of another node is held only once. -/
structure Maintained (before after : Arena) (root : Id) : Prop where
  owned : after.Owned root
  program : ∃ file shouldExecute items items',
    before.form root = .group (.program file shouldExecute) items ∧
      after.form root = .group (.program file shouldExecute) items'
  parent : (after.node root).parent = (before.node root).parent
  constructor_once : ∀ id name constructor body, after.Reaches root id →
    after.form id = .classLiteral name (some constructor) body → constructor ∉ after.children body
  index_once : ∀ id array index value holder, after.Reaches root id →
    after.form id = .arrayIndexWrite array index value → after.Reaches root holder →
      array ∈ after.children holder ∨ index ∈ after.children holder → holder = id

theorem Owned.maintained {before after : Arena} {root : Id} (howned : after.Owned root)
    {file : String} {shouldExecute : Bool}
    (hbefore : ∃ items, before.form root = .group (.program file shouldExecute) items)
    (hafter : ∃ items, after.form root = .group (.program file shouldExecute) items)
    (hparent : (after.node root).parent = (before.node root).parent) :
    Maintained before after root where
  owned := howned
  program := by
    obtain ⟨items, hitems⟩ := hbefore
    obtain ⟨items', hitems'⟩ := hafter
    exact ⟨file, shouldExecute, items, items', hitems, hitems'⟩
  parent := hparent
  constructor_once := by
    intro id name constructor body hreaches hform
    have hchildren : after.children id = [name, constructor, body] := by
      rw [children, hform]
      rfl
    apply howned.not_mem_children_of_sibling hreaches
    · simp [hchildren]
    · simp [hchildren]
  index_once := by
    intro id array index value holder hreaches hform hholder hheld
    have hchildren : after.children id = [array, index, value] := by
      rw [children, hform]
      rfl
    rcases hheld with hheld | hheld
    · exact howned.holder_unique hholder hreaches hheld (by simp [hchildren])
    · exact howned.holder_unique hholder hreaches hheld (by simp [hchildren])

theorem maintained_of_passes {arena : Arena} {root : Id} (hprogram : arena.kind root = .group .program)
    (htree : arena.IsTree root) {phases : List Phase} (hphases : phases ≠ []) :
    Maintained arena (arena.passes root phases) root := by
  obtain ⟨file, shouldExecute, term, hbefore⟩ := htree.exists_bearsProgram hprogram
  obtain ⟨earlier, last, rfl⟩ := List.eq_nil_or_concat phases |>.resolve_left hphases
  -- Only the last pass matters for the links below the root.
  rw [List.concat_eq_append, passes_append]
  obtain ⟨middle, hmiddle, hparent⟩ := hbefore.exists_passes earlier
  obtain ⟨result, hpassed, hafter⟩ := hmiddle.exists_passed last
  have howned := owned_of_bears hafter.bears hpassed.linked
  rw [hafter.label] at howned
  refine howned.maintained hbefore.form_eq hafter.form_eq ?_
  have hkept := hpassed.transition.parent
  rw [hpassed.label, hmiddle.label] at hkept
  exact hkept.trans hparent

/-- Passes of any phases in any order, at least one of them, leave a program's tree in order. So
does a run of a phase that may make a pass at all, whether or not it settles within its limit. -/
theorem maintained_after_passes {arena : Arena} {root : Id}
    (hprogram : arena.kind root = .group .program) (htree : arena.IsTree root)
    (earlier : List Phase) (last : Phase) :
    Maintained arena (arena.passes root (earlier ++ [last])) root ∧
      ∀ config : Config, config.maxPasses ≠ some 0 →
        Maintained arena ((arena.passes root earlier).runPhase config last root).arena root := by
  refine ⟨maintained_of_passes hprogram htree (by simp), ?_⟩
  intro config hlimit
  obtain ⟨file, shouldExecute, term, hbefore⟩ := htree.exists_bearsProgram hprogram
  obtain ⟨middle, hmiddle, -⟩ := hbefore.exists_passes earlier
  obtain ⟨count, harena, hcount⟩ :=
    runPhase_eq_passes (arena.passes root earlier) config last root hmiddle.kind_eq
  rw [harena, ← passes_append]
  apply maintained_of_passes hprogram htree
  intro hnil
  have hzero := (List.append_eq_nil_iff.mp hnil).2
  rw [List.replicate_eq_nil_iff] at hzero
  exact Nat.ne_of_gt (hcount hlimit) hzero

/-- A class with a constructor, whose nodes claim to be held by the wrong ones. -/
def strayClass : Arena where
  nodes := #[
    { form := .group (.program "main" true) [1], parent := some 7 },
    { form := .group (.provisional .temporary) [2, 3, 4, 5, 6], parent := some 1 },
    { form := .leaf .keyword (.name "class") },
    { form := .leaf (.literal .identifier) (.name "A"), parent := some 5 },
    { form := .leaf (.mark (.punctuation .leftCurly)) (.raw "\x7b") },
    { form := .group .block [7], parent := some 8 },
    { form := .leaf (.mark (.punctuation .rightCurly)) (.raw "\x7d") },
    { form := .functionLiteral (some 8) 9 10, parent := some 0 },
    { form := .leaf (.literal .identifier) (.name "constructor") },
    { form := .group .argumentList [] },
    { form := .group .block [] }]

theorem maintained_strayClass :
    strayClass.kind 0 = .group .program ∧ strayClass.IsTree 0 ∧
      Maintained strayClass (strayClass.passes 0 ([.normalization] ++ [.promotion])) 0 ∧
        Maintained strayClass
          ((strayClass.passes 0 [.normalization]).runPhase { maxPasses := some 1 } .promotion 0).arena
          0 := by
  have hprogram : strayClass.kind 0 = .group .program := rfl
  have htree : strayClass.IsTree 0 := by decide
  obtain ⟨hpasses, hrun⟩ := maintained_after_passes hprogram htree [.normalization] .promotion
  exact ⟨hprogram, htree, hpasses, hrun { maxPasses := some 1 } (by decide)⟩

end AstPromotion.Arena
