import AstPromotion.Proofs.Outline
import Mathlib.Algebra.GroupWithZero.Nat

/-! # What a drawing shows

Every node of a tree is drawn on a line of its own, behind one connector for each
node above it. A tree is determined by the depths of its nodes in preorder, so a
drawing tells any two trees apart whose texts start with a letter and hold no line
feed. The names of kinds are such texts.
-/

namespace AstPromotion

/-- What stands in a column to the left of a node: how the node, or one above it, is joined to the
node that holds it. -/
inductive Connector
  | tee
  | corner
  | stem
  | gap
deriving DecidableEq, Repr

namespace Connector

def text : Connector → String
  | .tee => "├╴"
  | .corner => "└╴"
  | .stem => "│ "
  | .gap => "  "

/-- Every connector takes two characters. -/
theorem length_text (connector : Connector) : connector.text.toList.length = 2 := by
  cases connector <;> rfl

/-- Connectors are not made of letters and do not end a line. -/
theorem not_letter_of_mem_text {connector : Connector} {char : Char}
    (hchar : char ∈ connector.text.toList) : char.isAlpha = false ∧ char ≠ '\n' := by
  have hall : (connector.text.toList.all fun char => !char.isAlpha && char != '\n') = true := by
    cases connector <;> decide
  have hboth := List.all_eq_true.mp hall char hchar
  rwa [Bool.and_eq_true, Bool.not_eq_true', bne_iff_ne] at hboth

/-- Connectors written from left to right. -/
def textOf (cells : List Connector) : String :=
  String.join (cells.map text)

theorem textOf_concat (cells : List Connector) (connector : Connector) :
    textOf (cells ++ [connector]) = textOf cells ++ connector.text := by
  rw [textOf, List.map_append, String.join_append]
  simp [textOf]

theorem toList_textOf (cells : List Connector) :
    (textOf cells).toList = cells.flatMap fun connector => connector.text.toList := by
  rw [textOf, String.toList_join, List.flatMap_map]

theorem length_textOf (cells : List Connector) :
    (textOf cells).toList.length = 2 * cells.length := by
  rw [toList_textOf]
  induction cells with
  | nil => rfl
  | cons connector rest ih =>
      rw [List.flatMap_cons, List.length_append, ih, length_text, List.length_cons]
      omega

theorem not_letter_of_mem_textOf {cells : List Connector} {char : Char}
    (hchar : char ∈ (textOf cells).toList) : char.isAlpha = false ∧ char ≠ '\n' := by
  rw [toList_textOf] at hchar
  obtain ⟨connector, -, hmem⟩ := List.mem_flatMap.mp hchar
  exact not_letter_of_mem_text hmem

end Connector

namespace Tree

/-- A line of a drawing: connectors, and the node they lead to. -/
structure Line (α : Type) where
  cells : List Connector
  label : α
deriving DecidableEq, Repr

variable {α β : Type}

def Line.map (f : α → β) (line : Line α) : Line β :=
  ⟨line.cells, f line.label⟩

/-- How a line is written without the line feed. -/
def Line.text (line : Line Kind) : String :=
  Connector.textOf line.cells ++ line.label.name

/-- The depth at which a line shows its node, and the node. -/
def Line.rank (line : Line α) : Nat × α :=
  (line.cells.length, line.label)

/-- How a node is joined to its holder on its own line and on the lines below it, given the siblings
to its right. -/
def joint : List (Tree α) → Connector × Connector
  | [] => (.corner, .gap)
  | _ :: _ => (.tee, .stem)

mutual

/-- The lines of a tree: the root's after `lead`, those below it after `indent`. -/
def layout (lead indent : List Connector) : Tree α → List (Line α)
  | .node label children => ⟨lead, label⟩ :: layoutEach indent children

/-- The lines of sibling trees, all of them after `indent`. -/
def layoutEach (indent : List Connector) : List (Tree α) → List (Line α)
  | [] => []
  | child :: rest =>
    layout (indent ++ [(joint rest).1]) (indent ++ [(joint rest).2]) child ++ layoutEach indent rest

end

mutual

/-- The labels in preorder, each with its depth; the root is at `depth`. -/
def ranked (depth : Nat) : Tree α → List (Nat × α)
  | .node label children => (depth, label) :: rankedEach (depth + 1) children

/-- `ranked` of sibling trees, one after another. -/
def rankedEach (depth : Nat) : List (Tree α) → List (Nat × α)
  | [] => []
  | tree :: rest => ranked depth tree ++ rankedEach depth rest

end

theorem linesBelow_cons (indent : String) (child : Tree String) (rest : List (Tree String)) :
    linesBelow indent (child :: rest) =
      linesFrom (indent ++ (joint rest).1.text) (indent ++ (joint rest).2.text) child ++
        linesBelow indent rest := by
  cases rest <;> rfl

theorem joint_mapEach (f : α → β) (trees : List (Tree α)) : joint (mapEach f trees) = joint trees := by
  cases trees <;> rfl

/-- How a line is written, without the line feed, if its node stands for a text. -/
def Line.render (line : Line String) : String :=
  Connector.textOf line.cells ++ line.label

mutual

theorem linesFrom_eq (lead indent : List Connector) : ∀ tree : Tree String,
    linesFrom (Connector.textOf lead) (Connector.textOf indent) tree =
      (tree.layout lead indent).map Line.render
  | .node label children => by
      rw [linesFrom, layout, List.map_cons, linesBelow_eq indent children]
      rfl

theorem linesBelow_eq (indent : List Connector) : ∀ trees : List (Tree String),
    linesBelow (Connector.textOf indent) trees = (layoutEach indent trees).map Line.render
  | [] => rfl
  | tree :: rest => by
      rw [linesBelow_cons, ← Connector.textOf_concat, ← Connector.textOf_concat,
        linesFrom_eq _ _ tree, linesBelow_eq indent rest, layoutEach, List.map_append]

end

/-- A drawing consists of the lines laid out, each ended by a line feed. -/
theorem draw_eq (tree : Tree String) :
    tree.draw = String.join ((tree.layout [] []).map fun line => line.render ++ "\n") := by
  have hlines : linesFrom "" "" tree = (tree.layout [] []).map Line.render := linesFrom_eq [] [] tree
  rw [draw, hlines, List.map_map]
  rfl

mutual

theorem layout_map (f : α → β) (lead indent : List Connector) : ∀ tree : Tree α,
    (tree.map f).layout lead indent = (tree.layout lead indent).map (Line.map f)
  | .node label children => by
      rw [map, layout, layout, List.map_cons, layoutEach_mapEach f indent children]
      rfl

theorem layoutEach_mapEach (f : α → β) (indent : List Connector) : ∀ trees : List (Tree α),
    layoutEach indent (mapEach f trees) = (layoutEach indent trees).map (Line.map f)
  | [] => rfl
  | tree :: rest => by
      rw [mapEach, layoutEach, layoutEach, joint_mapEach, layout_map f _ _ tree,
        layoutEach_mapEach f indent rest, List.map_append]

end

theorem draw_map_name (tree : Tree Kind) :
    (tree.map Kind.name).draw =
      String.join ((tree.layout [] []).map fun line => line.text ++ "\n") := by
  rw [draw_eq, layout_map, List.map_map]
  rfl

mutual

theorem map_rank_layout {lead indent : List Connector} (hlength : lead.length = indent.length) :
    ∀ tree : Tree α, (tree.layout lead indent).map Line.rank = tree.ranked lead.length
  | .node label children => by
      rw [layout, List.map_cons, map_rank_layoutEach indent children, ranked, ← hlength]
      rfl

theorem map_rank_layoutEach (indent : List Connector) : ∀ trees : List (Tree α),
    (layoutEach indent trees).map Line.rank = rankedEach (indent.length + 1) trees
  | [] => rfl
  | tree :: rest => by
      have hlength (first second : Connector) :
          (indent ++ [first]).length = (indent ++ [second]).length := by
        rw [List.length_append, List.length_append]
        rfl
      rw [layoutEach, List.map_append, map_rank_layout (hlength _ _) tree,
        map_rank_layoutEach indent rest, rankedEach, List.length_append, List.length_singleton]

end

theorem rankedEach_eq_flatMap (depth : Nat) (trees : List (Tree α)) :
    rankedEach depth trees = trees.flatMap (ranked depth) := by
  induction trees with
  | nil => rfl
  | cons tree rest ih => rw [rankedEach, ih, List.flatMap_cons]

mutual

theorem map_snd_ranked (depth : Nat) : ∀ tree : Tree α,
    (tree.ranked depth).map Prod.snd = tree.preorder
  | .node label children => by
      rw [ranked, List.map_cons, map_snd_rankedEach (depth + 1) children, preorder]

theorem map_snd_rankedEach (depth : Nat) : ∀ trees : List (Tree α),
    (rankedEach depth trees).map Prod.snd = preorderEach trees
  | [] => rfl
  | tree :: rest => by
      rw [rankedEach, List.map_append, map_snd_ranked depth tree, map_snd_rankedEach depth rest,
        preorderEach]

end

theorem map_label_layout (tree : Tree α) : (tree.layout [] []).map Line.label = tree.preorder := by
  rw [← map_snd_ranked 0 tree, ← List.length_nil, ← map_rank_layout rfl tree, List.map_map]
  rfl

/-! ## Trees from depths -/

/-- A list falls in one way only into entries that pass a test and a rest that does not start with
one. -/
theorem append_inj_of_takeWhile {α : Type} (test : α → Bool) {first second rest others : List α}
    (hfirst : ∀ entry ∈ first, test entry = true) (hsecond : ∀ entry ∈ second, test entry = true)
    (hrest : rest.takeWhile test = []) (hothers : others.takeWhile test = [])
    (heq : first ++ rest = second ++ others) : first = second ∧ rest = others := by
  have htaken := congrArg (List.takeWhile test) heq
  rw [List.takeWhile_append_of_pos hfirst, List.takeWhile_append_of_pos hsecond, hrest, hothers,
    List.append_nil, List.append_nil] at htaken
  subst htaken
  exact ⟨rfl, List.append_cancel_left heq⟩

mutual

theorem le_of_mem_ranked {depth : Nat} {entry : Nat × α} : ∀ tree : Tree α,
    entry ∈ tree.ranked depth → depth ≤ entry.1
  | .node label children, hentry => by
      rw [ranked, List.mem_cons] at hentry
      rcases hentry with rfl | hbelow
      · exact Nat.le_refl depth
      · exact Nat.le_of_succ_le (le_of_mem_rankedEach children hbelow)

theorem le_of_mem_rankedEach {depth : Nat} {entry : Nat × α} : ∀ trees : List (Tree α),
    entry ∈ rankedEach depth trees → depth ≤ entry.1
  | [], hentry => nomatch hentry
  | tree :: rest, hentry => by
      rw [rankedEach, List.mem_append] at hentry
      rcases hentry with hfirst | hrest
      · exact le_of_mem_ranked tree hfirst
      · exact le_of_mem_rankedEach rest hrest

end

/-- Siblings start at their own depth, so nothing of theirs is taken for a node below. -/
theorem takeWhile_rankedEach (depth : Nat) (trees : List (Tree α)) :
    (rankedEach depth trees).takeWhile (fun entry => depth < entry.1) = [] := by
  cases trees with
  | nil => rfl
  | cons tree rest =>
      obtain ⟨label, children⟩ := tree
      simp [rankedEach, ranked]

mutual

/-- The depths of the nodes in preorder determine the tree. -/
theorem eq_of_ranked_eq {depth : Nat} : ∀ tree other : Tree α,
    tree.ranked depth = other.ranked depth → tree = other
  | .node label children, .node label' children', heq => by
      rw [ranked, ranked] at heq
      obtain ⟨hroot, hbelow⟩ := List.cons.inj heq
      rw [(Prod.mk.inj hroot).2, eq_of_rankedEach_eq children children' hbelow]

theorem eq_of_rankedEach_eq {depth : Nat} : ∀ trees others : List (Tree α),
    rankedEach depth trees = rankedEach depth others → trees = others
  | [], [], _ => rfl
  | [], .node _ _ :: _, heq => nomatch heq
  | .node _ _ :: _, [], heq => nomatch heq
  | .node label children :: rest, .node label' children' :: others, heq => by
      rw [rankedEach, rankedEach, ranked, ranked, List.cons_append, List.cons_append] at heq
      obtain ⟨hroot, hlater⟩ := List.cons.inj heq
      -- What lies below the first tree ends where the depth comes down to its root's again.
      obtain ⟨hbelow, hrest⟩ := append_inj_of_takeWhile (fun entry => depth < entry.1)
        (fun entry hentry => decide_eq_true (le_of_mem_rankedEach children hentry))
        (fun entry hentry => decide_eq_true (le_of_mem_rankedEach children' hentry))
        (takeWhile_rankedEach depth rest) (takeWhile_rankedEach depth others) hlater
      rw [(Prod.mk.inj hroot).2, eq_of_rankedEach_eq children children' hbelow,
        eq_of_rankedEach_eq rest others hrest]

end

/-! ## Trees from drawings -/

/-- A text that tells where it starts at the end of a line, and that does not end the line. -/
structure IsCaption (text : String) : Prop where
  starts : ∃ first rest, text.toList = first :: rest ∧ first.isAlpha = true
  lineFeed : '\n' ∉ text.toList

/-- A line tells the depth of its node and the text there, as the text starts at the first letter. -/
theorem Line.rank_eq_of_render_eq {first second : Line String} (hfirst : IsCaption first.label)
    (hsecond : IsCaption second.label) (hrender : first.render.toList = second.render.toList) :
    first.rank = second.rank := by
  have hcells (line : Line String) :
      ∀ char ∈ (Connector.textOf line.cells).toList, (!char.isAlpha) = true := fun char hchar => by
    rw [(Connector.not_letter_of_mem_textOf hchar).1]
    rfl
  have hlabel {text : String} (hcaption : IsCaption text) :
      text.toList.takeWhile (fun char => !char.isAlpha) = [] := by
    obtain ⟨char, rest, hcons, halpha⟩ := hcaption.starts
    rw [hcons, List.takeWhile_cons, halpha]
    rfl
  rw [render, render, String.toList_append, String.toList_append] at hrender
  obtain ⟨htaken, hleft⟩ := append_inj_of_takeWhile (fun char => !char.isAlpha) (hcells first)
    (hcells second) (hlabel hfirst) (hlabel hsecond) hrender
  have hlength := congrArg List.length htaken
  rw [Connector.length_textOf, Connector.length_textOf] at hlength
  rw [rank, rank, Nat.eq_of_mul_eq_mul_left Nat.two_pos hlength, String.ext hleft]

theorem Line.count_render (line : Line String) :
    line.render.toList.count '\n' = line.label.toList.count '\n' := by
  have hcells : (Connector.textOf line.cells).toList.count '\n' = 0 :=
    List.count_eq_zero.mpr fun hmem => (Connector.not_letter_of_mem_textOf hmem).2 rfl
  rw [render, String.toList_append, List.count_append, hcells, Nat.zero_add]

/-- Lines as characters, each ended by a line feed. -/
def rendered (lines : List (Line String)) : List Char :=
  lines.flatMap fun line => line.render.toList ++ ['\n']

theorem toList_draw_eq (tree : Tree String) : tree.draw.toList = rendered (tree.layout [] []) := by
  rw [draw_eq, String.toList_join, List.flatMap_map, rendered]
  simp only [String.toList_append]
  rfl

theorem count_rendered (lines : List (Line String)) :
    (rendered lines).count '\n' =
      lines.length + (lines.map fun line => line.label.toList.count '\n').sum := by
  induction lines with
  | nil => rfl
  | cons line rest ih =>
      rw [rendered, List.flatMap_cons, List.count_append, List.count_append, ← rendered, ih,
        line.count_render, List.length_cons, List.map_cons, List.sum_cons, List.count_singleton_self]
      omega

/-- What is written tells line by line which text stands at which depth. -/
theorem map_rank_eq_of_rendered_eq {lines others : List (Line String)}
    (hlines : ∀ line ∈ lines, IsCaption line.label) (hothers : ∀ line ∈ others, IsCaption line.label)
    (hrendered : rendered lines = rendered others) : lines.map Line.rank = others.map Line.rank := by
  induction lines generalizing others with
  | nil =>
      cases others with
      | nil => rfl
      | cons other others => simp [rendered] at hrendered
  | cons line rest ih =>
      cases others with
      | nil => simp [rendered] at hrendered
      | cons other others =>
          obtain ⟨hline, hrest⟩ := List.forall_mem_cons.mp hlines
          obtain ⟨hother, hothers⟩ := List.forall_mem_cons.mp hothers
          have hplain {line : Line String} (hcaption : IsCaption line.label) :
              ∀ char ∈ line.render.toList, (char != '\n') = true := by
            rintro char hchar
            rw [bne_iff_ne]
            rintro rfl
            refine List.count_eq_zero.mp ?_ hchar
            rw [line.count_render, List.count_eq_zero]
            exact hcaption.lineFeed
          simp only [rendered, List.flatMap_cons, List.append_assoc] at hrendered
          obtain ⟨htext, hlater⟩ := append_inj_of_takeWhile (fun char => char != '\n') (hplain hline)
            (hplain hother) rfl rfl hrendered
          rw [List.map_cons, List.map_cons, Line.rank_eq_of_render_eq hline hother htext,
            ih hrest hothers (List.cons.inj hlater).2]

/-- The last line of a drawing is ended, too. -/
theorem exists_toList_draw (tree : Tree String) : ∃ front, tree.draw.toList = front ++ ['\n'] := by
  obtain ⟨label, children⟩ := tree
  have hsome : (Tree.node label children).layout [] [] ≠ [] := List.cons_ne_nil _ _
  obtain ⟨lines, last, hlines⟩ := List.eq_nil_or_concat _ |>.resolve_left hsome
  refine ⟨rendered lines ++ last.render.toList, ?_⟩
  rw [toList_draw_eq, hlines, List.concat_eq_append, rendered, List.flatMap_append,
    List.flatMap_singleton, List.append_assoc]
  rfl

/-- A drawing has one line for each node, and more if there are line feeds in the texts. -/
theorem count_draw (tree : Tree String) :
    tree.draw.toList.count '\n' =
      tree.size + (tree.preorder.map fun label => label.toList.count '\n').sum := by
  rw [toList_draw_eq, count_rendered, size, ← map_label_layout, List.length_map, List.map_map]
  rfl

/-- A drawing determines the tree, if its texts start with a letter and stay on their lines. -/
theorem draw_inj {tree other : Tree String} (htree : ∀ label ∈ tree.preorder, IsCaption label)
    (hother : ∀ label ∈ other.preorder, IsCaption label) : tree.draw = other.draw ↔ tree = other := by
  constructor
  · intro hdraw
    have hrendered := congrArg String.toList hdraw
    rw [toList_draw_eq, toList_draw_eq] at hrendered
    rw [← map_label_layout, List.forall_mem_map] at htree hother
    have hranks := map_rank_eq_of_rendered_eq htree hother hrendered
    rw [map_rank_layout rfl, map_rank_layout rfl] at hranks
    exact eq_of_ranked_eq tree other hranks
  · rintro rfl
    rfl

mutual

theorem preorder_map (f : α → β) : ∀ tree : Tree α, (tree.map f).preorder = tree.preorder.map f
  | .node label children => by
      rw [map, preorder, preorder, List.map_cons, preorderEach_mapEach f children]

theorem preorderEach_mapEach (f : α → β) : ∀ trees : List (Tree α),
    preorderEach (mapEach f trees) = (preorderEach trees).map f
  | [] => rfl
  | tree :: rest => by
      rw [mapEach, preorderEach, preorderEach, List.map_append, preorder_map f tree,
        preorderEach_mapEach f rest]

end

theorem size_map (f : α → β) (tree : Tree α) : (tree.map f).size = tree.size := by
  rw [size, size, preorder_map, List.length_map]

mutual

theorem map_inj {f : α → β} (hf : ∀ x y, f x = f y → x = y) : ∀ tree other : Tree α,
    tree.map f = other.map f → tree = other
  | .node label children, .node label' children', heq => by
      rw [map, map] at heq
      obtain ⟨hlabel, hchildren⟩ := Tree.node.inj heq
      rw [hf _ _ hlabel, mapEach_inj hf children children' hchildren]

theorem mapEach_inj {f : α → β} (hf : ∀ x y, f x = f y → x = y) : ∀ trees others : List (Tree α),
    mapEach f trees = mapEach f others → trees = others
  | [], [], _ => rfl
  | [], _ :: _, heq => nomatch heq
  | _ :: _, [], heq => nomatch heq
  | tree :: rest, other :: others, heq => by
      obtain ⟨hfirst, hrest⟩ := List.cons.inj heq
      rw [map_inj hf tree other hfirst, mapEach_inj hf rest others hrest]

end

end Tree

/-! ## Lines of kinds -/

/-- Kinds are named by letters. -/
theorem Kind.isAlpha_of_mem_name (kind : Kind) :
    ∀ char ∈ kind.name.toList, char.isAlpha = true := by
  have hall : kind.name.toList.all Char.isAlpha = true := by
    revert kind
    decide +kernel
  exact List.all_eq_true.mp hall

theorem Kind.name_ne_nil (kind : Kind) : kind.name.toList ≠ [] := by
  revert kind
  decide +kernel

/-- No two kinds have the same name. -/
theorem Kind.ofName?_name (kind : Kind) : Kind.ofName? kind.name = some kind := by
  revert kind
  decide +kernel

theorem Kind.eq_of_name_eq (kind other : Kind) (hname : kind.name = other.name) : kind = other := by
  have hkind := congrArg Kind.ofName? hname
  rw [ofName?_name, ofName?_name] at hkind
  exact Option.some.inj hkind

theorem Kind.lineFeed_not_mem_name (kind : Kind) : '\n' ∉ kind.name.toList := fun hmem =>
  absurd (kind.isAlpha_of_mem_name _ hmem) (by decide)

theorem Kind.isCaption_name (kind : Kind) : Tree.IsCaption kind.name where
  starts := by
    obtain ⟨first, rest, hcons⟩ := List.exists_cons_of_ne_nil kind.name_ne_nil
    exact ⟨first, rest, hcons, kind.isAlpha_of_mem_name first (hcons ▸ List.mem_cons_self)⟩
  lineFeed := kind.lineFeed_not_mem_name

namespace Tree

/-- Lines as characters, each ended by a line feed. -/
def written (lines : List (Line Kind)) : List Char :=
  lines.flatMap fun line => line.text.toList ++ ['\n']

theorem written_eq (lines : List (Line Kind)) :
    written lines = rendered (lines.map (Line.map Kind.name)) := by
  rw [rendered, List.flatMap_map]
  rfl

theorem toList_draw (tree : Tree Kind) :
    (tree.map Kind.name).draw.toList = written (tree.layout [] []) := by
  rw [toList_draw_eq, layout_map, written_eq]

theorem count_written (lines : List (Line Kind)) : (written lines).count '\n' = lines.length := by
  have hnone : ∀ count ∈ lines.map fun line => line.label.name.toList.count '\n', count = 0 := by
    rw [List.forall_mem_map]
    exact fun line _ => List.count_eq_zero.mpr line.label.lineFeed_not_mem_name
  rw [written_eq, count_rendered, List.length_map, List.map_map]
  exact congrArg (lines.length + ·) (List.sum_eq_zero_iff_forall_eq_nat.mpr hnone)

/-- A drawing of kinds determines the tree. -/
theorem draw_map_name_inj {tree other : Tree Kind} :
    (tree.map Kind.name).draw = (other.map Kind.name).draw ↔ tree = other := by
  have hcaptions (tree : Tree Kind) : ∀ label ∈ (tree.map Kind.name).preorder, IsCaption label := by
    rw [preorder_map, List.forall_mem_map]
    exact fun kind _ => kind.isCaption_name
  rw [draw_inj (hcaptions tree) (hcaptions other)]
  exact ⟨map_inj Kind.eq_of_name_eq tree other, fun heq => heq ▸ rfl⟩

end Tree

/-! ## Dumps of kinds -/

/-- A dump of nothing but kinds. -/
def DumpOptions.bare : DumpOptions where
  showPayload := false
  showBuildTime := false

namespace Arena

variable {arena : Arena} {root : Id} {term : Term Id}

theorem dump_bare_eq (arena : Arena) (root : Id) :
    arena.dump root .bare = (((arena.tree root).map arena.kind).map Kind.name).draw := by
  have hline (node : Node) : node.line .bare = node.form.kind.name := by
    rw [Node.line]
    exact (String.append_empty).trans String.append_empty
  rw [dump, Tree.map_map]
  exact congrArg (fun f => ((arena.tree root).map f).draw) (funext fun id => hline (arena.node id))

/-- A node is reached from another by going to a child `depth` times. -/
inductive ReachesIn (arena : Arena) : Nat → Id → Id → Prop
  | root (id : Id) : ReachesIn arena 0 id id
  | child {depth : Nat} {root child id : Id} (hchild : child ∈ arena.children root)
      (hreaches : ReachesIn arena depth child id) : ReachesIn arena (depth + 1) root id

theorem Bears.mem_ranked_iff (hbears : arena.Bears term) {start rank : Nat} {id : Id} :
    (rank, id) ∈ (arena.tree term.label).ranked start ↔
      ∃ depth, rank = start + depth ∧ arena.ReachesIn depth term.label id := by
  induction term using Term.induction generalizing start with
  | step term ih =>
      rw [hbears.tree_eq, Term.skeleton_eq, Tree.ranked, Tree.rankedEach_eq_flatMap,
        List.flatMap_map, List.mem_cons, List.mem_flatMap]
      constructor
      · rintro (hroot | ⟨child, hchild, hmem⟩)
        · obtain ⟨rfl, rfl⟩ := Prod.mk.inj hroot
          exact ⟨0, rfl, .root _⟩
        · have hbelow := hbears.of_mem_children hchild
          rw [← hbelow.tree_eq] at hmem
          obtain ⟨depth, rfl, hreaches⟩ := (ih child hchild hbelow).mp hmem
          refine ⟨depth + 1, by omega, .child ?_ hreaches⟩
          rw [hbears.holds.children_eq]
          exact List.mem_map_of_mem hchild
      · rintro ⟨depth, rfl, hreaches⟩
        cases hreaches with
        | root => exact Or.inl rfl
        | @child depth _ _ _ hheld hreaches =>
            rw [hbears.holds.children_eq] at hheld
            obtain ⟨child, hchild, rfl⟩ := List.mem_map.mp hheld
            have hbelow := hbears.of_mem_children hchild
            refine Or.inr ⟨child, hchild, ?_⟩
            rw [← hbelow.tree_eq]
            exact (ih child hchild hbelow).mpr ⟨depth, by omega, hreaches⟩

/-- The lines that draw the tree below a node: one for each node that is reached, in preorder, each
ended by a line feed. A node stands behind as many connectors as there are nodes above it. -/
structure Drawn (arena : Arena) (root : Id) (lines : List (Tree.Line Id)) (text : String) :
    Prop where
  text_eq : text = String.join (lines.map fun line => (line.map arena.kind).text ++ "\n")
  lineFeeds : text.toList.count '\n' = lines.length
  preorder : lines.map Tree.Line.label = (arena.tree root).preorder
  nodup : (lines.map Tree.Line.label).Nodup
  reaches : ∀ id, id ∈ lines.map Tree.Line.label ↔ arena.Reaches root id
  depth : ∀ line ∈ lines, ∀ depth,
    arena.ReachesIn depth root line.label ↔ depth = line.cells.length
  width : ∀ line ∈ lines, (Connector.textOf line.cells).toList.length = 2 * line.cells.length

theorem IsTree.exists_drawn (htree : arena.IsTree root) :
    ∃ lines, arena.Drawn root lines (arena.dump root .bare) := by
  obtain ⟨term, rfl, hbears⟩ := htree.exists_bears
  let lines := (arena.tree term.label).layout [] []
  have hlines : ((arena.tree term.label).map arena.kind).layout [] [] =
      lines.map (Tree.Line.map arena.kind) := Tree.layout_map arena.kind [] [] _
  have hlabels : lines.map Tree.Line.label = (arena.tree term.label).preorder :=
    Tree.map_label_layout _
  have hranks : lines.map Tree.Line.rank = (arena.tree term.label).ranked 0 :=
    Tree.map_rank_layout rfl _
  have hnodup : (lines.map Tree.Line.label).Nodup := hlabels ▸ htree.1
  have hmem {line : Tree.Line Id} (hline : line ∈ lines) {depth : Nat} :
      (depth, line.label) ∈ lines.map Tree.Line.rank ↔ depth = line.cells.length := by
    constructor
    · intro hmem
      obtain ⟨other, hother, hrank⟩ := List.mem_map.mp hmem
      obtain ⟨rfl, hlabel⟩ := Prod.mk.inj hrank
      rw [List.inj_on_of_nodup_map hnodup hother hline hlabel]
    · rintro rfl
      exact List.mem_map.mpr ⟨line, hline, rfl⟩
  refine ⟨lines, ?_, ?_, hlabels, hnodup, ?_, ?_, fun line _ => Connector.length_textOf line.cells⟩
  · rw [dump_bare_eq, Tree.draw_map_name, hlines, List.map_map]
    rfl
  · rw [dump_bare_eq, Tree.toList_draw, Tree.count_written, hlines, List.length_map]
  · intro id
    rw [hlabels, hbears.preorder_tree, hbears.reaches_iff]
  · intro line hline depth
    rw [← hmem hline, hranks, hbears.mem_ranked_iff]
    simp

/-- A dump of kinds draws every reachable node on a line of its own, at its depth, and two trees have
the same dump only if they are the same ordered tree of kinds. -/
theorem dump_bare (htree : arena.IsTree root) :
    (∃ lines, arena.Drawn root lines (arena.dump root .bare)) ∧
      ∀ (other : Arena) (root' : Id), other.IsTree root' →
        (arena.dump root .bare = other.dump root' .bare ↔
          (arena.tree root).map arena.kind = (other.tree root').map other.kind) := by
  refine ⟨htree.exists_drawn, fun other root' _ => ?_⟩
  rw [dump_bare_eq, dump_bare_eq, Tree.draw_map_name_inj]

/-- A name inside a block inside a program, numbered from the leaf on. -/
def upward : Arena where
  nodes := #[
    { form := .leaf (.literal .identifier) (.name "x") },
    { form := .group .block [0] },
    { form := .leaf .keyword (.name "let") },
    { form := .group (.program "main" true) [1, 2] }]

/-- The same kinds in the same places, numbered from the program on. -/
def downward : Arena where
  nodes := #[
    { form := .group (.program "other" false) [1, 3] },
    { form := .group .block [2] },
    { form := .leaf (.literal .identifier) (.name "y") },
    { form := .leaf .keyword (.raw "class") }]

theorem dump_bare_upward :
    upward.IsTree 3 ∧ downward.IsTree 0 ∧
      (∃ lines, upward.Drawn 3 lines (upward.dump 3 .bare)) ∧
        upward.dump 3 .bare = downward.dump 0 .bare := by
  have htree : upward.IsTree 3 := by decide
  have htree' : downward.IsTree 0 := by decide
  obtain ⟨hdrawn, hsame⟩ := dump_bare htree
  exact ⟨htree, htree', hdrawn, (hsame downward 0 htree').mpr rfl⟩

example :
    upward.dump 3 .bare =
      "Program\n├╴Block\n│ └╴IdentifierLiteral\n└╴KeywordLiteral\n" := by
  decide +kernel

end Arena

end AstPromotion
