import AstPromotion.Proofs.Operands

/-! # What is called

The rule for calls looks at the parentheses only. Whatever may stand alone in a
program may therefore be called there, and indexed where the call is assigned to:
a value, but also a statement or a container. Validation keeps marks, keywords and
provisional groupings from being called.
-/

namespace AstPromotion

namespace Form

variable {α β : Type}

/-- What a construct calls or indexes. -/
def target? : Form α → Option α
  | .call callee _ => some callee
  | .arrayIndexWrite array _ _ => some array
  | _ => none

/-- A container, a construct, or a literal that was read. -/
def IsTarget (form : Form α) : Prop :=
  form.kind.isContainer = true ∨ (∃ built, form.kind = .construct built) ∨
    ∃ literal value, form = .leaf (.literal literal) value ∧ value.isRaw = false

theorem target?_map (f : α → β) (form : Form α) : (form.map f).target? = form.target?.map f := by
  cases form <;> rfl

theorem isTarget_map {f : α → β} {form : Form α} : (form.map f).IsTarget ↔ form.IsTarget := by
  simp only [IsTarget, kind_map, map_eq_leaf_iff]

theorem mem_children_of_target? {form : Form α} {target : α} (htarget : form.target? = some target) :
    target ∈ form.children ∧ form.kind.holdsOperator = false := by
  cases form with
  | call | arrayIndexWrite =>
      cases htarget
      exact ⟨List.mem_cons_self, rfl⟩
  | _ => cases htarget

end Form

/-! ## Accepted programs -/

/-- Where validation accepts no operator, it accepts targets only. -/
theorem Term.isTarget_of_reason? {ι : Type} {term : Term ι} {holder : Option Kind}
    (hreason : term.form.reason? holder = none) (hholder : holder.any Kind.holdsOperator = false) :
    term.form.IsTarget := by
  rcases Form.admissible_of_reason? hreason with hcontainer | hbuilt | hliteral | ⟨sign, value, hform⟩
  · exact Or.inl hcontainer
  · exact Or.inr (Or.inl hbuilt)
  · exact Or.inr (Or.inr hliteral)
  · have hoperator := isOperator_of_reason? hreason hholder
    rw [isOperator, hform] at hoperator
    cases hoperator

/-- What a construct of an accepted program calls or indexes is a target. -/
theorem Arena.BearsProgram.isTarget_of_validate {arena : Arena} {root : Id} {file : String}
    {shouldExecute : Bool} {term : Term Id}
    (hprogram : arena.BearsProgram root file shouldExecute term)
    (hvalid : arena.validate root = .ok ()) {id target : Id} (hreaches : arena.Reaches root id)
    (htarget : (arena.form id).target? = some target) : (arena.form target).IsTarget := by
  obtain ⟨inner, hinner, rfl⟩ := List.mem_map.mp (hprogram.reaches_iff.mp hreaches)
  have hholds := hprogram.bears.holds
  rw [(hholds.of_mem hinner).form_eq, Form.target?_map, Option.map_eq_some_iff] at htarget
  obtain ⟨child, hchild, rfl⟩ := htarget
  obtain ⟨hmem, hholder⟩ := Form.mem_children_of_target? hchild
  rw [← hprogram.label] at hvalid
  have hreason := (hprogram.bears.fits_of_validate hvalid).2 inner hinner child hmem
  rw [(hholds.of_mem (Term.mem_subterms_of_child_of_mem hinner hmem)).form_eq, Form.isTarget_map]
  exact Term.isTarget_of_reason? hreason hholder

/-! ## Calls and writes -/

namespace Language

open Term (node)

variable {callee callee' target value value' : Term Unit} {arguments arguments' : List (Term Unit)}

/-- A call, before promotion. -/
abbrev call (callee : Term Unit) (arguments : List (Term Unit)) : Term Unit :=
  list (.provisional .expression)
    [callee, signLeaf .leftParen, list .expressionList arguments, signLeaf .rightParen]

/-- A call reduces to a construct over what the callee and the arguments reduce to. -/
theorem Reduces.call (hcallee : Reduces [callee] [callee'])
    (harguments : Reduces arguments arguments') :
    Reduces [Language.call callee arguments]
      [node () (.call callee' (list .expressionList arguments'))] := by
  have hopening : Reduces [signLeaf .leftParen] [signLeaf .leftParen] := Reduces.mark rfl
  have hlist : Reduces [list .expressionList arguments] [list .expressionList arguments'] :=
    harguments.container rfl
  have hclosing : Reduces [signLeaf .rightParen] [signLeaf .rightParen] := Reduces.mark rfl
  exact Reduces.expression ⟨callee, .punctuation .leftParen, _, rfl, rfl⟩
    (hcallee.append (hopening.append (hlist.append hclosing))) (Nat.le_refl _)
    (remaining_of_build (.call rfl rfl rfl rfl rfl))

/-- What a call calls is indexed where it is assigned to. -/
theorem Reduces.write
    (htarget : Reduces [target] [node () (.call callee (list .expressionList arguments))])
    (hvalue : Reduces [value] [value']) (hoperand : value'.kind.isOperand = true) :
    Reduces [Language.operation .assignment target value]
      [node () (.arrayIndexWrite callee (list .expressionList arguments) value')] :=
  Reduces.expression ⟨target, .operator .assignment, [value], rfl, rfl⟩
    (htarget.around hvalue .assignment) (Nat.le_refl _)
    (remaining_of_build (.indexWrite rfl rfl rfl rfl hoperand))

theorem accepted_call (hcallee : Accepted callee) (harguments : ∀ tree ∈ arguments, Accepted tree) :
    Accepted (node () (.call callee (list .expressionList arguments))) :=
  accepted_construct rfl (forall_two hcallee (accepted_list rfl harguments))

theorem accepted_write (hcallee : Accepted callee) (harguments : ∀ tree ∈ arguments, Accepted tree)
    (hvalue : Accepted value) :
    Accepted (node () (.arrayIndexWrite callee (list .expressionList arguments) value)) :=
  accepted_construct rfl (forall_three hcallee (accepted_list rfl harguments) hvalue)

end Language

/-! ## Programs that call something -/

open AstPromotion.Language (list accepted_call accepted_write)
open Term (node)

/-- An item with a list of arguments in parentheses after it. -/
abbrev Sketch.call (callee : Sketch) (arguments : List Sketch) : Sketch :=
  .group (.provisional .expression) [
    callee, .leaf (.mark (.punctuation .leftParen)), .group .expressionList arguments,
    .leaf (.mark (.punctuation .rightParen))]

variable {file : String} {item target value : Sketch} {arguments : List Sketch}
  {tree operand : Term Unit} {trees : List (Term Unit)}

theorem Sketch.toTerm_call (file : String) (item : Sketch) (arguments : List Sketch) :
    (Sketch.call item arguments).toTerm file =
      Language.call (item.toTerm file) (arguments.map (Sketch.toTerm file)) := by
  have harguments : (Sketch.group .expressionList arguments).toTerm file =
      list .expressionList (arguments.map (Sketch.toTerm file)) := Sketch.toTerm_group ..
  rw [Sketch.toTerm_group, List.map_cons, List.map_cons, List.map_cons, harguments]
  rfl

theorem Sketch.toTerm_operation (file : String) (sign : Operator) (item other : Sketch) :
    (Sketch.operation sign item other).toTerm file =
      Language.operation sign (item.toTerm file) (other.toTerm file) :=
  Sketch.toTerm_group ..

namespace Yields

/-- Whatever is accepted can be called. -/
theorem call (hitem : Yields file [item] [tree]) (harguments : Yields file arguments trees) :
    Yields file [.call item arguments] [node () (.call tree (list .expressionList trees))] := by
  rw [yields_iff] at hitem harguments ⊢
  obtain ⟨hproper, hreduces, haccepted⟩ := hitem
  obtain ⟨hproper', hreduces', haccepted'⟩ := harguments
  refine ⟨?_, ?_, ?_⟩
  · simp only [Sketch.tokens, Sketch.tokensEach, List.append_nil, List.forall_mem_append,
      List.forall_mem_singleton] at hproper ⊢
    exact ⟨hproper, True.intro, hproper', True.intro⟩
  · rw [List.map_singleton, Sketch.toTerm_call]
    exact hreduces.call hreduces'
  · rw [List.forall_mem_singleton] at haccepted ⊢
    exact accepted_call haccepted haccepted'

/-- Whatever is accepted can be indexed. -/
theorem write (hitem : Yields file [item] [tree]) (harguments : Yields file arguments trees)
    (hvalue : Yields file [value] [operand]) (hoperand : operand.kind.isOperand = true) :
    Yields file [.operation .assignment (.call item arguments) value]
      [node () (.arrayIndexWrite tree (list .expressionList trees) operand)] := by
  have hcall := hitem.call harguments
  rw [yields_iff] at hitem harguments hvalue hcall ⊢
  obtain ⟨hproper, hreduces, -⟩ := hcall
  obtain ⟨hproper', hreduces', haccepted'⟩ := hvalue
  refine ⟨?_, ?_, ?_⟩
  · simp only [Sketch.tokens, Sketch.tokensEach, List.append_nil, List.forall_mem_append,
      List.forall_mem_singleton] at hproper hproper' ⊢
    exact ⟨hproper, True.intro, hproper'⟩
  · rw [List.map_singleton, Sketch.toTerm_operation]
    exact hreduces.write hreduces' hoperand
  · have haccepted := hitem.2.2
    rw [List.forall_mem_singleton] at haccepted haccepted' ⊢
    exact accepted_write haccepted harguments.2.2 haccepted'

end Yields

/-! ## What callees are -/

theorem isTarget_of_optimizeSource {source : String} {config : Config} {program : Optimized}
    (hvalidate : config.validate = true) (hok : (optimizeSource file source config).1 = .ok program)
    {id target : Id} (hreaches : program.arena.Reaches program.root id)
    (htarget : (program.arena.form id).target? = some target) :
    (program.arena.form target).IsTarget := by
  obtain ⟨before, sketch, term, -, hsketch, hreport, harena⟩ :=
    Arena.exists_of_optimizeSource hok
  obtain ⟨-, hpromoted, harena', hvalid⟩ := hsketch.program.of_optimize_eq_ok hreport
  obtain ⟨middle, result, -, hprogram, -⟩ := hsketch.exists_promoted hpromoted
  rw [← harena, harena'] at hreaches htarget ⊢
  exact hprogram.isTarget_of_validate (hvalid hvalidate) hreaches htarget

/-- What is called or indexed need not be a value. In an accepted program it is a container, a
construct or a literal that was read, and no more can be said: however an item is written that is
accepted alone and leaves a single tree, it can be called with any accepted arguments, and what it
calls can be assigned any accepted value. Both are accepted, with that tree for the callee and for
the array. -/
theorem callees_of_parse (file : String) :
    (∀ source config program, config.validate = true →
      (optimizeSource file source config).1 = .ok program →
        ∀ id target, program.arena.Reaches program.root id →
          (program.arena.form id).target? = some target →
            (program.arena.form target).IsTarget) ∧
    ∀ item arguments tree trees, Yields file [item] [tree] → Yields file arguments trees →
      Yields file [.call item arguments] [node () (.call tree (list .expressionList trees))] ∧
      ∀ value operand, Yields file [value] [operand] → operand.kind.isOperand = true →
        Yields file [.operation .assignment (.call item arguments) value]
          [node () (.arrayIndexWrite tree (list .expressionList trees) operand)] := by
  constructor
  · intro source config program hvalidate hok id target hreaches htarget
    exact isTarget_of_optimizeSource hvalidate hok hreaches htarget
  · intro item arguments tree trees hitem harguments
    exact ⟨hitem.call harguments, fun value operand hvalue => hitem.write harguments hvalue⟩

/-- What a program yields has the kinds of what is found below its root. -/
theorem exists_yields {source : String} {items : List Sketch} {kinds : List Kind}
    (hparse : Sketch.parse source = .ok (.group .program items))
    (hkinds : ((optimizeSource file source).1.toOption.any fun one =>
      decide ((one.arena.children one.root).map one.arena.kind = kinds)) = true) :
    ∃ trees, trees.map Term.kind = kinds ∧ Yields file items trees := by
  obtain ⟨one, hok, rfl⟩ := exists_of_any_toOption hkinds
  obtain ⟨result, optimized, hcompiles⟩ := exists_compiles file hparse
  obtain ⟨hnone, rfl⟩ := hcompiles.of_checked_eq_ok hok
  refine ⟨_, ?_, yields_of_optimizeSource hparse hok⟩
  rw [hcompiles.map_kind_children, hcompiles.ast_eq]
  rfl

/-- A block that is called. -/
def calledBlock : String :=
  "(Program (Expression (Block) '(' (ExpressionList) ')'))"

/-- A block that is indexed. -/
def indexedBlock : String :=
  "(Program (Expression (Expression (Block) '(' (ExpressionList) ')') '=' 1))"

theorem callees_of_parse_block :
    (∃ program id target, (optimizeSource "main" calledBlock).1 = .ok program ∧
      program.arena.Reaches program.root id ∧ (program.arena.form id).target? = some target ∧
        program.arena.kind target = .group .block ∧ (program.arena.form target).IsTarget) ∧
    ∃ program tree operand, (optimizeSource "main" indexedBlock).1 = .ok program ∧
      tree.kind = .group .block ∧ operand.kind.isOperand = true ∧
        program.arena.ast program.root = .program "main"
          [node () (.arrayIndexWrite tree (list .expressionList []) operand)] := by
  obtain ⟨haccepted, hyields⟩ := callees_of_parse "main"
  constructor
  · obtain ⟨program, hok, id, hid, target, -, htarget, hkind⟩ : ∃ program,
        (optimizeSource "main" calledBlock).1 = .ok program ∧
          ∃ id ∈ program.arena.children program.root, ∃ target ∈ program.arena.children id,
            (program.arena.form id).target? = some target ∧
              program.arena.kind target = .group .block :=
      exists_of_any_toOption (by decide +kernel)
    have hreaches : program.arena.Reaches program.root id := .child .root hid
    exact ⟨program, id, target, hok, hreaches, htarget, hkind,
      haccepted calledBlock {} program rfl hok id target hreaches htarget⟩
  · have hblock : Sketch.parse "(Program (Block))" = .ok (.group .program [.group .block []]) := by
      cbv
    have hnothing : Sketch.parse "(Program)" = .ok (.group .program []) := by
      cbv
    have hnumber : Sketch.parse "(Program 1)" = .ok (.group .program [.leaf (.number "1")]) := by
      cbv
    have hwrite : Sketch.parse indexedBlock = .ok (.group .program [
        .operation .assignment (.call (.group .block []) []) (.leaf (.number "1"))]) := by
      cbv
    obtain ⟨trees, htrees, hitem⟩ : ∃ trees, trees.map Term.kind = [.group .block] ∧
        Yields "main" [.group .block []] trees := exists_yields hblock (by decide +kernel)
    obtain ⟨arguments, hnone, harguments⟩ : ∃ trees, trees.map Term.kind = [] ∧
        Yields "main" [] trees := exists_yields hnothing (by decide +kernel)
    obtain ⟨values, hvalues, hvalue⟩ : ∃ trees, trees.map Term.kind = [.leaf (.literal .numeric)] ∧
        Yields "main" [.leaf (.number "1")] trees := exists_yields hnumber (by decide +kernel)
    obtain ⟨tree, rfl, htree⟩ := List.map_eq_singleton_iff.mp htrees
    obtain rfl := List.map_eq_nil_iff.mp hnone
    obtain ⟨operand, rfl, hkind⟩ := List.map_eq_singleton_iff.mp hvalues
    have hoperand : operand.kind.isOperand = true := by
      rw [hkind]
      rfl
    obtain ⟨program, hok, hast⟩ :=
      ((hyields _ _ tree [] hitem harguments).2 _ operand hvalue hoperand).accepted _ hwrite
    exact ⟨program, tree, operand, hok, htree, hoperand, hast⟩

/-- Callees are not all values. -/
theorem not_forall_isValue_callee :
    ¬ ∀ source program, (optimizeSource "main" source).1 = .ok program →
      ∀ id target, program.arena.Reaches program.root id →
        (program.arena.form id).target? = some target →
          (program.arena.kind target).isValue = true := by
  intro hvalues
  obtain ⟨program, hok, id, hid, target, -, htarget, hkind⟩ : ∃ program,
      (optimizeSource "main" calledBlock).1 = .ok program ∧
        ∃ id ∈ program.arena.children program.root, ∃ target ∈ program.arena.children id,
          (program.arena.form id).target? = some target ∧
            (program.arena.kind target).isValue = false :=
    exists_of_any_toOption (by decide +kernel)
  have hvalue := hvalues calledBlock program hok id target (.child .root hid) htarget
  rw [hkind] at hvalue
  cases hvalue

end AstPromotion
