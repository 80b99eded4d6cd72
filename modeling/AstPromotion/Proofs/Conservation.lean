import AstPromotion.Proofs.Leaves
import AstPromotion.Proofs.Normalization.Literals
import AstPromotion.Proofs.Parsed
import AstPromotion.Proofs.Promotion.Order

/-! # Conservation

Whatever becomes of a program, its contents stay: the same nodes, each of them
reachable once and in the order they had, except that a constructor comes before
the body it was taken out of. If both phases settle, every literal has been read.
-/

namespace AstPromotion

/-- The leaves of a sketch are its tokens, with their text. -/
theorem Sketch.allLeaves_toTerm (file : String) (sketch : Sketch) :
    (sketch.toTerm file).AllLeaves fun _ kind value =>
      ∃ token ∈ sketch.tokens, kind = token.kind ∧ value = .raw token.raw := by
  induction sketch using induction with
  | leaf token =>
      refine Term.forall_subterms_iff.mpr ⟨?_, fun _ hchild => (nomatch hchild)⟩
      intro kind value hform
      cases hform
      exact ⟨token, List.mem_singleton_self token, rfl, rfl⟩
  | group kind items ih =>
      rw [toTerm_group]
      refine Term.forall_subterms_iff.mpr ⟨fun _ _ hform => (nomatch hform), ?_⟩
      intro child hchild inner hinner kind' value hform
      obtain ⟨item, hitem, rfl⟩ := List.mem_map.mp hchild
      obtain ⟨token, htoken, hleaf⟩ := ih item hitem inner hinner kind' value hform
      refine ⟨token, ?_, hleaf⟩
      rw [tokens, tokensEach_eq_flatMap]
      exact List.mem_flatMap.mpr ⟨item, hitem, htoken⟩

namespace Arena

variable {before middle after arena : Arena} {root : Id} {file : String} {shouldExecute : Bool}
  {term normal result : Term Id} {run : Run} {limit size : Nat}

/-- An id that is already taken, as itself; any later one as the first that is free. -/
def taken (size : Nat) (id : Id) : Id :=
  min id size

theorem taken_of_lt {id : Id} (hid : id < size) : taken size id = id :=
  Nat.min_eq_left (Nat.le_of_lt hid)

theorem taken_of_le {id : Id} (hid : size ≤ id) : taken size id = size :=
  Nat.min_eq_right hid

theorem eq_of_taken_lt {id : Id} (hid : taken size id < size) : taken size id = id := by
  rcases Nat.lt_or_ge id size with hlt | hle
  · exact taken_of_lt hlt
  · rw [taken_of_le hle] at hid
    exact absurd hid (Nat.lt_irrefl size)

theorem map_taken_of_lt (hinside : ∀ id ∈ term.labels, id < size) : term.map (taken size) = term := by
  induction term using Term.induction with
  | step term ih =>
      rw [Term.map_eq, taken_of_lt (hinside _ term.label_mem_labels)]
      conv => rhs; rw [← term.node_eta]
      congr 1
      apply Form.map_eq_self
      intro child hchild
      exact ih child hchild fun id hid => hinside id (Term.mem_labels_of_mem_children hchild hid)

/-- Contents with ids that were taken are told apart by them. -/
theorem contents_map_taken (hinside : ∀ content ∈ (term.map (taken size)).contents,
    content.1 < size) : (term.map (taken size)).contents = term.contents := by
  rw [Term.contents_map] at hinside ⊢
  rw [List.forall_mem_map] at hinside
  conv => rhs; rw [← List.map_id term.contents]
  apply List.map_congr_left
  rintro ⟨id, kind⟩ hcontent
  exact congrArg (·, kind) (eq_of_taken_lt (hinside _ hcontent))

theorem contents_map_taken_of_lt (hinside : ∀ content ∈ term.contents, content.1 < size) :
    (term.map (taken size)).contents = term.contents := by
  apply contents_map_taken
  rw [Term.contents_map, List.forall_mem_map]
  rintro ⟨id, kind⟩ hcontent
  have hid : id < size := hinside _ hcontent
  change taken size id < size
  rwa [taken_of_lt hid]

/-! ## The two runs -/

theorem contents_inside (hbears : arena.Bears term) :
    ∀ content ∈ term.contents, content.1 < arena.size := fun _ hcontent =>
  hbears.inside _ (Term.mem_labels_of_mem_contents hcontent)

/-- What a run makes of the term before it, when all ids that were free are one and the same. -/
theorem Ran.image_taken {phase : Phase}
    (hran : Ran phase limit before root file shouldExecute term run result)
    (hbears : before.Bears term) :
    term.settle phase before.size limit = (run.settled, result.map (taken before.size)) := by
  have himage := hran.image (taken before.size) before.size fun _ hid => taken_of_le hid
  rwa [map_taken_of_lt hbears.inside] at himage

/-- A run of normalization keeps the contents and their order. -/
theorem Ran.contents_eq
    (hran : Ran .normalization limit before root file shouldExecute term run result)
    (hbears : before.Bears term) (hshallow : term.Shallow) : result.contents = term.contents := by
  have himage : (term.settle .normalization before.size limit).2 =
      result.map (taken before.size) := congrArg Prod.snd (hran.image_taken hbears)
  have hkept : (result.map (taken before.size)).Shallow ∧
      (result.map (taken before.size)).contents = term.contents := by
    rw [← himage]
    refine Term.settle_induction (fun other => other.Shallow ∧
      other.contents = term.contents) ?_ ⟨hshallow, rfl⟩
    rintro other ⟨hother, hcontents⟩
    refine ⟨Normalization.shallow_normalize _ hother, ?_⟩
    rw [← hcontents]
    exact (Normalization.contents_normalize hother).2
  rw [← hkept.2]
  refine (contents_map_taken ?_).symm
  rw [hkept.2]
  exact contents_inside hbears

/-- A run of promotion keeps the contents, and their order but for constructors. -/
theorem Ran.rearranged
    (hran : Ran .promotion limit middle root file shouldExecute normal run result)
    (hshallow : normal.Shallow) (hcontainer : normal.kind.isContainer = true)
    (hsize : size ≤ middle.size) (hinside : ∀ content ∈ normal.contents, content.1 < size) :
    Rearranged (Term.Extracted [result]) result.contents normal.contents := by
  have hfresh (id : Id) (hid : middle.size ≤ id) : taken size id = size :=
    taken_of_le (Nat.le_trans hsize hid)
  have hcontents := contents_map_taken_of_lt hinside
  have himage : Rearranged (Term.Extracted [result.map (taken size)])
      (result.map (taken size)).contents normal.contents := by
    cases limit with
    | zero =>
        have hsame : normal.map (taken size) = result.map (taken size) :=
          congrArg Prod.snd (hran.image (taken size) size hfresh)
        rw [← hsame, hcontents]
        exact .refl _ _
    | succ limit =>
        obtain ⟨hterm, hstays⟩ := hran.promoted hshallow hcontainer _ _ hfresh
        have horder :=
          ((Promotion.sourceOrder_promote (Term.shallow_map.mpr hshallow)).2 hstays).rearranged
        rw [hterm, hcontents, List.flatMap_singleton] at horder
        exact horder
  have hresult : (result.map (taken size)).contents = result.contents :=
    contents_map_taken fun content hcontent => hinside content (himage.perm.mem_iff.mp hcontent)
  rw [hresult] at himage
  refine ⟨himage.perm, fun x y hpair => (himage.order x y hpair).imp_right ?_⟩
  rintro ⟨_, hmem, inner, hinner, name, constructor, body, hform, hx, hy⟩
  obtain rfl := List.mem_singleton.mp hmem
  rw [Term.subterms_map] at hinner
  obtain ⟨original, horiginal, rfl⟩ := List.mem_map.mp hinner
  -- The class literal is the image of one in the result, whose contents need no image.
  have hsame {field : Term Id} (hfield : field ∈ original.children) :
      (field.map (taken size)).contents = field.contents := by
    apply contents_map_taken
    intro content hcontent
    refine hinside content (himage.perm.mem_iff.mp ?_)
    rw [← hresult]
    refine Term.contents_subset_of_mem_subterms ?_ hcontent
    rw [Term.subterms_map]
    exact List.mem_map_of_mem (Term.mem_subterms_of_child_of_mem horiginal hfield)
  rw [Term.form_map] at hform
  cases hclass : original.form with
  | classLiteral name' constructor' body' =>
      rw [hclass] at hform
      cases constructor' with
      | none => cases hform
      | some constructor' =>
          cases hform
          rw [hsame (by simp [Term.children, hclass, Form.children])] at hx hy
          exact ⟨result, List.mem_singleton_self _, original, horiginal, name', constructor', body',
            hclass, hx, hy⟩
  | _ =>
      rw [hclass] at hform
      cases hform

/-- A run of normalization keeps a property of leaves that reading keeps. -/
theorem Ran.allLeaves_of_normalization {property : Id → LeafKind → Value → Prop}
    (hran : Ran .normalization limit before root file shouldExecute term run result)
    (hprogram : before.BearsProgram root file shouldExecute term) (hshallow : term.Shallow)
    (hleaves : term.AllLeaves property)
    (hread : ∀ label kind text value, property label kind (.raw text) →
      Normalization.readValue kind text = some value → property label kind value) :
    (result.map (taken before.size)).AllLeaves property := by
  have himage : (term.settle .normalization before.size limit).2 =
      result.map (taken before.size) := congrArg Prod.snd (hran.image_taken hprogram.bears)
  rw [← himage]
  refine (Term.settle_induction (fun other => other.Shallow ∧
    other.kind.isContainer = true ∧ other.AllLeaves property) ?_
      ⟨hshallow, hprogram.isContainer, hleaves⟩).2.2
  rintro other ⟨hother, hcontainer, hproperty⟩
  refine ⟨Normalization.shallow_normalize _ hother, ?_, ?_⟩
  · rw [Term.visit, Normalization.kind_normalize_of_container hcontainer, hcontainer]
  · exact Normalization.allLeaves_normalize hother hproperty hread
      (Normalization.gone_normalize_of_container hcontainer)

/-- The leaves of a program that was read are the tokens of its sketch. -/
theorem BearsSketch.allLeaves {sketch : Sketch} (hsketch : before.BearsSketch root file sketch term) :
    term.AllLeaves fun _ kind value =>
      ∃ token ∈ sketch.tokens, kind = token.kind ∧ value = .raw token.raw := by
  have hleaves := sketch.allLeaves_toTerm file
  rw [← hsketch.erase_eq] at hleaves
  exact Term.allLeaves_map.mp hleaves

/-- Every leaf of what was read holds the text of a proper token. -/
theorem BearsSketch.allLeaves_of_parse {sketch : Sketch} {source : String}
    {holds : LeafKind → Value → Prop} (hsketch : before.BearsSketch root file sketch term)
    (hparse : Sketch.parse source = .ok sketch)
    (hproper : ∀ token : Token, token.Proper → holds token.kind (.raw token.raw)) :
    term.AllLeaves fun _ kind value => holds kind value := by
  refine hsketch.allLeaves.mono ?_
  rintro - - - ⟨token, htoken, rfl, rfl⟩
  exact hproper token (Sketch.proper_of_parse hparse token htoken)

/-- After both runs every literal has been read, and from the text it had. -/
theorem BearsSketch.allLeaves_promoted {sketch : Sketch} {first second : Run}
    (hsketch : before.BearsSketch root file sketch term)
    (hproper : ∀ token ∈ sketch.tokens, token.Proper)
    (hnormal : Ran .normalization limit before root file true term first normal)
    (hsettled : first.settled = true)
    (hresult : Ran .promotion (size + 1) first.arena root file true normal second result) :
    result.AllLeaves fun label kind value => ∀ literal, kind = .literal literal →
      ∃ token ∈ sketch.tokens, token.kind = kind ∧
        before.form label = .leaf kind (.raw token.raw) ∧ literal.Denotes token.raw value := by
  have hfresh (id : Id) (hid : before.size ≤ id) : taken before.size id = before.size :=
    taken_of_le hid
  have hstems := hnormal.allLeaves_of_normalization hsketch.program hsketch.shallow
    term.allLeaves_stems fun _ _ _ _ hstems hread => hstems.read hread
  have hread : (normal.map (taken before.size)).Settled .normalization := by
    have himage := hnormal.image_taken hsketch.program.bears
    have hlast := Term.settled_of_settle (congrArg Prod.fst himage |>.trans hsettled)
    rwa [himage] at hlast
  obtain ⟨hterm, hstays⟩ := hresult.promoted (hnormal.shallow hsketch.shallow)
    hnormal.program.isContainer _ _ fun id hid => hfresh id (Nat.le_trans hnormal.size_le hid)
  have hleaves : (result.map (taken before.size)).AllLeaves fun label kind value =>
      term.Stems label kind value ∧
        ∀ text, value = .raw text → Normalization.readValue kind text = none := by
    rw [← hterm]
    refine Promotion.allLeaves_promote ?_ ?_ hstays
    · exact Term.shallow_map.mpr (hnormal.shallow hsketch.shallow)
    · exact fun inner hinner kind value hform => ⟨hstems inner hinner kind value hform,
        Term.allLeaves_of_settled hread inner hinner kind value hform⟩
  -- A leaf of the result stems from a token, and what could be read of it has been.
  refine (Term.allLeaves_map.mp hleaves).mono ?_
  rintro label _ value ⟨⟨origin, horigin, hlabel, hvalue⟩, hunread⟩ literal rfl
  have hlabel : origin.label = label := by
    rw [hlabel]
    apply eq_of_taken_lt
    rw [← hlabel]
    exact hsketch.program.bears.inside _ (List.mem_map_of_mem horigin)
  obtain ⟨token, htoken, hkind, hraw, hvalue⟩ : ∃ token ∈ sketch.tokens,
      token.kind = .literal literal ∧ origin.form = .leaf (.literal literal) (.raw token.raw) ∧
        (value = .raw token.raw ∨
          Normalization.readValue (.literal literal) token.raw = some value) := by
    rcases hvalue with hform | ⟨text, hform, hvalue⟩
    · obtain ⟨token, htoken, hkind, rfl⟩ := hsketch.allLeaves origin horigin _ _ hform
      exact ⟨token, htoken, hkind.symm, hform, Or.inl rfl⟩
    · obtain ⟨token, htoken, hkind, heq⟩ := hsketch.allLeaves origin horigin _ _ hform
      obtain rfl := Value.raw.inj heq
      exact ⟨token, htoken, hkind.symm, hform, Or.inr hvalue⟩
  obtain ⟨denoted, hreadable, hdenotes⟩ :=
    Normalization.exists_readValue_of_proper (hproper token htoken) hkind
  have hvalue : value = denoted := by
    rcases hvalue with rfl | hvalue
    · rw [hunread _ rfl] at hreadable
      cases hreadable
    · rw [hvalue] at hreadable
      exact Option.some.inj hreadable
  refine ⟨token, htoken, hkind, ?_, hvalue ▸ hdenotes⟩
  rw [← hlabel, hsketch.program.bears.holds origin horigin, hraw]
  rfl

/-! ## Programs that were read -/

/-- What becomes of the contents of a program. Each is still reachable, and only once, and no other
node is to be kept. They come in the order they had, except that the contents of a constructor come
before those of the body it was taken out of, the body itself included. -/
structure Conserved (before after : Arena) (root : Id) : Prop where
  tree : after.IsTree root
  same : ∀ id kind, kind.isContent = true →
    (after.Reaches root id ∧ after.kind id = kind ↔ before.Reaches root id ∧ before.kind id = kind)
  order : ∀ x y, [x, y].Sublist (after.contents root) → [x, y].Sublist (before.contents root) ∨
    ∃ literal name constructor body, after.Reaches root literal ∧
      after.form literal = .classLiteral name (some constructor) body ∧
        after.Reaches constructor x.1 ∧ after.Reaches body y.1

/-- Every literal that is reachable stands for a token of the source and carries the value of that
token's text. -/
def Coerced (source : String) (before after : Arena) (root : Id) : Prop :=
  ∀ id literal, after.Reaches root id → after.kind id = .leaf (.literal literal) →
    ∃ token : Token, token.Proper ∧ token.lexeme.toList <:+: source.toList ∧
      token.kind = .literal literal ∧ before.form id = .leaf (.literal literal) (.raw token.raw) ∧
        ∃ value, literal.Denotes token.raw value ∧ after.form id = .leaf (.literal literal) value

/-- The contents are the reachable nodes of their kinds. -/
theorem Bears.mem_contents_iff (hbears : arena.Bears term) {id : Id} {kind : Kind}
    (hcontent : kind.isContent = true) :
    (id, kind) ∈ term.contents ↔ arena.Reaches term.label id ∧ arena.kind id = kind := by
  rw [← hbears.contents_eq, Arena.contents, List.mem_filter, hbears.preorder_tree,
    hbears.reaches_iff, List.mem_map]
  constructor
  · rintro ⟨⟨other, hother, heq⟩, -⟩
    cases heq
    exact ⟨hother, rfl⟩
  · rintro ⟨hid, rfl⟩
    exact ⟨⟨id, hid, rfl⟩, hcontent⟩

theorem conserved_of_rearranged (hbefore : before.Bears term) (hlabel : term.label = root)
    (hafter : after.Bears result) (hlabel' : result.label = root)
    (h : Rearranged (Term.Extracted [result]) result.contents term.contents) :
    Conserved before after root where
  tree := hlabel' ▸ hafter.isTree
  same id kind hcontent := by
    have hmem := h.perm.mem_iff (a := (id, kind))
    rwa [hbefore.mem_contents_iff hcontent, hafter.mem_contents_iff hcontent, hlabel, hlabel']
      at hmem
  order x y hpair := by
    subst hlabel
    rw [← hlabel', hafter.contents_eq] at hpair
    rw [hbefore.contents_eq]
    refine (h.order x y hpair).imp_right ?_
    rintro ⟨_, hmem, inner, hinner, name, constructor, body, hform, hx, hy⟩
    obtain rfl := List.mem_singleton.mp hmem
    have hfield {field : Term Id} (hfield : field ∈ inner.children) {content : Id × Kind}
        (hcontent : content ∈ field.contents) : after.Reaches field.label content.1 :=
      (hafter.of_mem (Term.mem_subterms_of_child_of_mem hinner hfield)).reaches_iff.mpr
        (Term.mem_labels_of_mem_contents hcontent)
    refine ⟨inner.label, name.label, constructor.label, body.label, ?_, ?_, ?_, ?_⟩
    · rw [← hlabel']
      exact hafter.reaches_iff.mpr (List.mem_map_of_mem hinner)
    · rw [hafter.holds inner hinner, hform]
      rfl
    · exact hfield (by simp [Term.children, hform, Form.children]) hx
    · exact hfield (by simp [Term.children, hform, Form.children]) hy

/-- Where an optimization leaves the program: after the first run or after both. -/
theorem BearsProgram.arena_optimize
    (hprogram : before.BearsProgram root file shouldExecute term) (config : Config) :
    (before.optimize root config).arena = (before.normalized config root).arena ∨
      (before.optimize root config).arena = (before.promoted config root).arena := by
  rcases hprogram.optimize_cases config with ⟨-, harena, -⟩ | ⟨-, -, harena, -⟩ | ⟨-, -, harena, -⟩
  · exact Or.inl harena
  · exact Or.inr harena
  · exact Or.inr harena

theorem BearsSketch.conserved {sketch : Sketch}
    (hsketch : before.BearsSketch root file sketch term) (config : Config) :
    Conserved before (before.optimize root config).arena root := by
  have hbears := hsketch.program.bears
  have hlabel := hsketch.program.label
  obtain ⟨normal, hnormal⟩ := hsketch.program.exists_ran .normalization (before.limit config)
  obtain ⟨result, hresult⟩ := hnormal.program.exists_ran .promotion
    ((before.normalized config root).arena.limit config)
  have hcontents := hnormal.contents_eq hbears hsketch.shallow
  rcases hsketch.program.arena_optimize config with harena | harena
  · rw [harena]
    apply conserved_of_rearranged hbears hlabel hnormal.program.bears hnormal.program.label
    rw [hcontents]
    exact .refl _ _
  · rw [harena]
    apply conserved_of_rearranged hbears hlabel hresult.program.bears hresult.program.label
    rw [← hcontents]
    refine hresult.rearranged (hnormal.shallow hsketch.shallow) hnormal.program.isContainer
      hnormal.size_le ?_
    rw [hcontents]
    exact contents_inside hbears

/-- What is left of a program that was optimized is a tree. -/
theorem isTree_of_optimizeSource {source : String} {config : Config} {optimized : Optimized}
    (hok : (optimizeSource file source config).1 = .ok optimized) :
    optimized.arena.IsTree optimized.root := by
  obtain ⟨before, sketch, term, -, hsketch, -, harena⟩ := exists_of_optimizeSource hok
  rw [← harena]
  exact (hsketch.conserved config).tree

theorem BearsSketch.coerced {sketch : Sketch} {source : String} {config : Config} {report : Report}
    (hsketch : before.BearsSketch root file sketch term) (hparse : Sketch.parse source = .ok sketch)
    (hok : (before.optimize root config).outcome = .ok report) :
    Coerced source before (before.optimize root config).arena root := by
  have hstand := Sketch.stand_of_parse hparse
  obtain ⟨hsettled, hsettled', harena, -⟩ := hsketch.program.of_optimize_eq_ok hok
  obtain ⟨normal, hnormal⟩ := hsketch.program.exists_ran .normalization (before.limit config)
  obtain ⟨result, hresult⟩ := hnormal.program.exists_ran .promotion
    ((before.normalized config root).arena.limit config)
  have hprogram : (before.promoted config root).arena.BearsProgram root file true result :=
    hresult.program
  obtain ⟨earlier, hlimit⟩ := hresult.exists_limit_of_settled hsettled'
  rw [hlimit] at hresult
  have hleaves := hsketch.allLeaves_promoted (fun token htoken => (hstand token htoken).1) hnormal
    hsettled hresult
  rw [harena]
  intro id literal hreaches hkind
  obtain ⟨inner, hinner, rfl⟩ := List.mem_map.mp (hprogram.reaches_iff.mp hreaches)
  have hform := hprogram.bears.holds inner hinner
  rw [Arena.kind, hform, Form.kind_map] at hkind
  cases hleaf : inner.form with
  | leaf kind value =>
      rw [hleaf] at hkind hform
      cases hkind
      obtain ⟨token, htoken, hkind, hraw, hdenotes⟩ :=
        hleaves inner hinner _ value hleaf literal rfl
      obtain ⟨hproper, hinfix⟩ := hstand token htoken
      exact ⟨token, hproper, hinfix, hkind, hraw, value, hdenotes, hform⟩
  | _ =>
      rw [hleaf] at hkind
      cases hkind

/-- Optimization conserves contents, whatever the limit on passes and whether or not it succeeds.
If it succeeds, every literal carries the value of its own text; and without a limit and without
validation it does succeed. -/
theorem conserved_of_optimize {source : String} (hparse : parseSource file source = .ok (root, before))
    (hprogram : before.kind root = .group .program) (config : Config) :
    Conserved before (before.optimize root config).arena root ∧
      (∀ report, (before.optimize root config).outcome = .ok report →
        Coerced source before (before.optimize root config).arena root) ∧
          (config.maxPasses = none → config.validate = false →
            ∃ report, (before.optimize root config).outcome = .ok report) := by
  obtain ⟨sketch, term, hsource, hsketch⟩ := exists_bearsSketch hparse hprogram
  refine ⟨hsketch.conserved config, fun _ => hsketch.coerced hsource, ?_⟩
  intro hlimit hvalidate
  obtain ⟨hnormal, hpromoted⟩ := hsketch.program.settled_of_unlimited hsketch.shallow hlimit
  have houtcome := (optimize_of_settled hprogram hnormal
    (hsketch.program.kind_normalized config) hpromoted).2
  rw [hvalidate] at houtcome
  exact ⟨_, houtcome⟩

/-- A class whose constructor stands behind another statement. -/
def lateConstructor : String :=
  "(Program (Statement (Temporary class A '\x7b' (Block (Statement 1) (Statement (Expression " ++
    "func constructor '(' (ArgumentList) ')' '\x7b' (Block) '\x7d'))) '\x7d')))"

theorem conserved_lateConstructor :
    ∃ root before, parseSource "main" lateConstructor = .ok (root, before) ∧
      before.kind root = .group .program ∧
        Conserved before (before.optimize root { validate := false }).arena root ∧
          Coerced lateConstructor before (before.optimize root { validate := false }).arena root := by
  have hsource : ((parseSource "main" lateConstructor).toOption.any fun parsed =>
      parsed.2.kind parsed.1 == .group .program) = true := by
    decide +kernel
  cases hparse : parseSource "main" lateConstructor with
  | error cause =>
      rw [hparse] at hsource
      cases hsource
  | ok program =>
      obtain ⟨root, before⟩ := program
      rw [hparse] at hsource
      have hprogram : before.kind root = .group .program := beq_iff_eq.mp hsource
      obtain ⟨hconserved, hcoerced, hsucceeds⟩ :=
        conserved_of_optimize hparse hprogram { validate := false }
      obtain ⟨report, hok⟩ := hsucceeds rfl rfl
      exact ⟨root, before, rfl, hprogram, hconserved, hcoerced report hok⟩

end Arena

end AstPromotion
