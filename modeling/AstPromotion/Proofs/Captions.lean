import AstPromotion.Proofs.Conservation
import AstPromotion.Proofs.Drawing
import AstPromotion.Proofs.Unread

/-! # What a dump with payloads shows

By default a line shows the kind of its node and the payload of a leaf, written as
it is. A payload ends the line where it holds a line feed, and what follows may
pass for a line of another node. Numbers, names and marks hold none, so only the
string literals of the source can bring one in, and all of them are in the dump.
-/

namespace AstPromotion

/-! ## Captions -/

/-- What a line shows of its node: the kind and, of a leaf, the payload. -/
@[ext] structure Caption where
  kind : Kind
  payload : Option String
deriving DecidableEq, Repr

namespace Caption

/-- What is written behind the kind. -/
def tail (caption : Caption) : String :=
  match caption.payload with
  | some shown => " - " ++ shown
  | none => ""

def text (caption : Caption) : String :=
  caption.kind.name ++ caption.tail

/-- How many line feeds there are in the payload. -/
def lineFeeds (caption : Caption) : Nat :=
  match caption.payload with
  | some shown => shown.toList.count '\n'
  | none => 0

theorem count_text (caption : Caption) : caption.text.toList.count '\n' = caption.lineFeeds := by
  have hname : caption.kind.name.toList.count '\n' = 0 :=
    List.count_eq_zero.mpr caption.kind.lineFeed_not_mem_name
  rw [text, String.toList_append, List.count_append, hname, Nat.zero_add, tail, lineFeeds]
  cases caption.payload with
  | none => rfl
  | some shown =>
      rw [String.toList_append, List.count_append]
      exact Nat.zero_add _

theorem isCaption_text {caption : Caption} (hplain : caption.lineFeeds = 0) :
    Tree.IsCaption caption.text where
  starts := by
    obtain ⟨first, rest, hcons, halpha⟩ := caption.kind.isCaption_name.starts
    refine ⟨first, rest ++ caption.tail.toList, ?_, halpha⟩
    rw [text, String.toList_append, hcons, List.cons_append]
  lineFeed := by rw [← List.count_eq_zero, count_text, hplain]

theorem payload_eq_of_tail_eq {caption other : Caption}
    (htail : caption.tail.toList = other.tail.toList) : caption.payload = other.payload := by
  rw [tail, tail] at htail
  cases hfirst : caption.payload with
  | none =>
      cases hsecond : other.payload with
      | none => rfl
      | some shown =>
          rw [hfirst, hsecond, String.toList_append] at htail
          cases htail
  | some shown =>
      cases hsecond : other.payload with
      | none =>
          rw [hfirst, hsecond, String.toList_append] at htail
          cases htail
      | some shown' =>
          rw [hfirst, hsecond, String.toList_append, String.toList_append] at htail
          rw [String.ext (List.append_cancel_left htail)]

/-- The name of a kind ends where the payload starts. -/
theorem eq_of_text_eq (caption other : Caption) (htext : caption.text = other.text) :
    caption = other := by
  have htail (caption : Caption) : caption.tail.toList.takeWhile Char.isAlpha = [] := by
    rw [tail]
    cases caption.payload with
    | none => rfl
    | some shown =>
        rw [String.toList_append]
        rfl
  have hlists := congrArg String.toList htext
  rw [text, text, String.toList_append, String.toList_append] at hlists
  obtain ⟨hname, hrest⟩ := Tree.append_inj_of_takeWhile Char.isAlpha
    caption.kind.isAlpha_of_mem_name other.kind.isAlpha_of_mem_name (htail caption) (htail other)
    hlists
  exact Caption.ext (Kind.eq_of_name_eq _ _ (String.ext hname)) (payload_eq_of_tail_eq hrest)

end Caption

/-- What is shown of a node with a form. -/
def Form.caption {α : Type} (form : Form α) : Caption :=
  ⟨form.kind, form.value?.map Value.display⟩

theorem Form.caption_map {α β : Type} (f : α → β) (form : Form α) :
    (form.map f).caption = form.caption := by
  rw [caption, caption, kind_map, value?_map]

theorem Node.line_eq_text (node : Node) : node.line {} = node.form.caption.text := by
  cases hvalue : node.form.value? <;>
    simp [Node.line, Form.caption, Caption.text, Caption.tail, hvalue]

namespace Arena

/-- What a dump shows below a node. -/
def captions (arena : Arena) (root : Id) : Tree Caption :=
  (arena.tree root).map fun id => (arena.form id).caption

theorem dump_eq_draw (arena : Arena) (root : Id) :
    arena.dump root = ((arena.captions root).map Caption.text).draw := by
  rw [dump, captions, Tree.map_map]
  exact congrArg (fun f => ((arena.tree root).map f).draw)
    (funext fun id => (arena.node id).line_eq_text)

/-- How many line feeds there are in the payloads below a node. -/
def lineFeeds (arena : Arena) (root : Id) : Nat :=
  ((arena.tree root).preorder.map fun id => (arena.form id).caption.lineFeeds).sum

/-- A dump has one line for each node, and one more for each line feed in a payload. -/
theorem count_dump (arena : Arena) (root : Id) :
    (arena.dump root).toList.count '\n' = (arena.tree root).size + arena.lineFeeds root := by
  have hcount : (fun text : String => text.toList.count '\n') ∘ Caption.text = Caption.lineFeeds :=
    funext Caption.count_text
  rw [dump_eq_draw, Tree.count_draw, captions, Tree.size, Tree.preorder_map, Tree.preorder_map,
    List.length_map, List.length_map, List.map_map, List.map_map, hcount, Tree.size, lineFeeds]
  rfl

/-- Where no payload holds a line feed, dumps tell trees apart. -/
theorem dump_eq_iff {arena other : Arena} {root root' : Id} (hplain : arena.lineFeeds root = 0)
    (hplain' : other.lineFeeds root' = 0) :
    arena.dump root = other.dump root' ↔ arena.captions root = other.captions root' := by
  have hcaptions {arena : Arena} {root : Id} (hplain : arena.lineFeeds root = 0) :
      ∀ label ∈ ((arena.captions root).map Caption.text).preorder, Tree.IsCaption label := by
    rw [lineFeeds, List.sum_eq_zero_iff_forall_eq_nat, List.forall_mem_map] at hplain
    rw [captions, Tree.preorder_map, Tree.preorder_map, List.forall_mem_map, List.forall_mem_map]
    exact fun id hid => Caption.isCaption_text (hplain id hid)
  rw [dump_eq_draw, dump_eq_draw, Tree.draw_inj (hcaptions hplain) (hcaptions hplain')]
  exact ⟨Tree.map_inj Caption.eq_of_text_eq _ _, fun heq => heq ▸ rfl⟩

end Arena

/-! ## Line feeds in a source -/

/-- How many line feeds there are in a string literal. -/
def Token.lineFeeds : Token → Nat
  | string text => text.toList.count '\n'
  | _ => 0

/-- How many line feeds there are in the string literals of a sketch. -/
def Sketch.lineFeeds (sketch : Sketch) : Nat :=
  (sketch.tokens.map Token.lineFeeds).sum

theorem Mark.lineFeed_not_mem_spelling (mark : Mark) : '\n' ∉ mark.spelling.toList := by
  cases mark with
  | punctuation sign => cases sign <;> decide
  | operator sign => cases sign <;> decide

theorem IsNumeral.lineFeed_not_mem {text : List Char} (hnumeral : IsNumeral text) :
    '\n' ∉ text := by
  have hdigits {digits : List Char} (hall : ∀ digit ∈ digits, digit.isDigit = true) :
      '\n' ∉ digits := fun hmem => absurd (hall _ hmem) (by decide)
  cases hnumeral with
  | whole _ hwhole => exact hdigits hwhole
  | pointed _ hwhole _ hfraction =>
      rw [List.mem_append, List.mem_cons]
      rintro (hmem | hpoint | hmem)
      · exact hdigits hwhole hmem
      · cases hpoint
      · exact hdigits hfraction hmem

theorem IsWord.lineFeed_not_mem {text : List Char} (hword : IsWord text) : '\n' ∉ text := by
  obtain ⟨start, rest, rfl, hstart, hrest⟩ := hword
  rw [List.mem_cons]
  rintro (rfl | hmem)
  · revert hstart
    decide
  · exact absurd (hrest _ hmem) (by decide)

/-- Whoever reads a text finds line feeds in its string literals only. -/
theorem Token.Proper.count_raw {token : Token} (hproper : token.Proper) :
    token.raw.toList.count '\n' = token.lineFeeds := by
  cases token with
  | string text => rfl
  | number text => exact List.count_eq_zero.mpr hproper.lineFeed_not_mem
  | word text => exact List.count_eq_zero.mpr hproper.lineFeed_not_mem
  | mark sign => exact List.count_eq_zero.mpr sign.lineFeed_not_mem_spelling

/-- Before anything is read, the line feeds of a sketch are those in its leaves. -/
theorem Sketch.sum_lineFeeds_toTerm (file : String) {sketch : Sketch}
    (hproper : ∀ token ∈ sketch.tokens, token.Proper) :
    ((sketch.toTerm file).subterms.map fun inner => inner.form.caption.lineFeeds).sum =
      sketch.lineFeeds := by
  induction sketch using induction with
  | leaf token =>
      have htoken := (hproper token (List.mem_singleton_self token)).count_raw
      rw [Term.subterms_eq]
      simpa [toTerm, Term.children, Form.children, Form.caption, Form.value?, Caption.lineFeeds,
        Value.display, Sketch.lineFeeds, tokens] using htoken
  | group kind items ih =>
      have hitem {item : Sketch} (hitem : item ∈ items) : ∀ token ∈ item.tokens, token.Proper := by
        intro token htoken
        refine hproper token ?_
        rw [tokens, tokensEach_eq_flatMap]
        exact List.mem_flatMap.mpr ⟨item, hitem, htoken⟩
      rw [toTerm_group, Term.subterms_eq, Sketch.lineFeeds, tokens, tokensEach_eq_flatMap,
        List.map_cons, List.sum_cons, List.flatMap_def, List.flatMap_def, List.map_flatten,
        List.map_flatten, List.sum_flatten, List.sum_flatten]
      simp only [Term.children_node, Form.children, List.map_map]
      have hown : (Term.node () (Form.group (kind.heading file)
          (items.map (toTerm file)))).form.caption.lineFeeds = 0 := rfl
      rw [hown, Nat.zero_add]
      exact congrArg List.sum (List.map_congr_left fun item hmem => ih item hmem (hitem hmem))

/-! ## Line feeds in a program -/

/-- Whether only the payload of a string literal may hold line feeds. -/
def LeafKind.Plain (kind : LeafKind) (value : Value) : Prop :=
  kind ≠ .literal .string → '\n' ∉ value.display.toList

theorem Token.Proper.plain {token : Token} (hproper : token.Proper) :
    token.kind.Plain (.raw token.raw) := by
  intro hkind
  rw [Value.display, ← List.count_eq_zero, hproper.count_raw]
  cases token with
  | string text => exact absurd rfl hkind
  | _ => rfl

namespace Binary64

theorem lineFeed_not_mem_toString (number : Nat) : '\n' ∉ (toString number).toList := by
  rw [Nat.toString_eq_repr, Nat.toList_repr]
  intro hmem
  have hdigit := Nat.isDigit_of_mem_toDigits (by decide) (by decide) hmem
  revert hdigit
  decide

theorem lineFeed_not_mem_zeros (count : Nat) :
    '\n' ∉ (String.ofList (List.replicate count '0')).toList := by
  rw [String.toList_ofList]
  exact fun hmem => absurd (List.eq_of_mem_replicate hmem) (by decide)

theorem lineFeed_not_mem_positional (digits : Nat) (power : Int) :
    '\n' ∉ (positional digits power).toList := by
  rw [positional]
  split
  · rw [String.toList_append, List.mem_append]
    exact not_or.mpr ⟨lineFeed_not_mem_toString _, lineFeed_not_mem_zeros _⟩
  · simp only [String.toList_append, List.mem_append, not_or]
    exact ⟨⟨⟨lineFeed_not_mem_toString _, by decide⟩, lineFeed_not_mem_zeros _⟩,
      lineFeed_not_mem_toString _⟩

theorem lineFeed_not_mem_text (number : Binary64) : '\n' ∉ number.text.toList := by
  cases number with
  | nan => decide
  | infinite negative => cases negative <;> decide
  | finite negative mantissa exponent =>
      have hsize : '\n' ∉ (if mantissa = 0 then "0" else
          positional (Interval.around mantissa exponent).shortest.1
            (Interval.around mantissa exponent).shortest.2).toList := by
        split
        · decide
        · exact lineFeed_not_mem_positional _ _
      cases negative with
      | false => exact hsize
      | true =>
          change '\n' ∉ ("-" ++ _).toList
          rw [String.toList_append, List.mem_append]
          exact not_or.mpr ⟨by decide, hsize⟩

end Binary64

/-- Reading a text brings no line feed into it. -/
theorem LeafKind.Plain.read {kind : LeafKind} {text : String} {value : Value}
    (hplain : kind.Plain (.raw text)) (hread : Normalization.readValue kind text = some value) :
    kind.Plain value := by
  intro hkind
  cases kind with
  | literal literal =>
      cases literal with
      | numeric =>
          obtain ⟨number, -, rfl⟩ := Option.map_eq_some_iff.mp hread
          exact number.lineFeed_not_mem_text
      | boolean =>
          change Normalization.readBoolean (.literal .boolean) text = some value at hread
          unfold Normalization.readBoolean at hread
          split at hread
          next =>
              cases hread
              decide
          next =>
              cases hread
              decide
          next => cases hread
      | string => exact absurd rfl hkind
      | identifier =>
          cases hread
          exact hplain hkind
  | keyword =>
      cases hread
      exact hplain hkind
  | mark mark => cases hread

/-- Terms that are 0 make no difference to a sum. -/
theorem sum_map_filter {α : Type} (keep : α → Bool) (count : α → Nat) (list : List α)
    (hzero : ∀ entry ∈ list, keep entry = false → count entry = 0) :
    ((list.filter keep).map count).sum = (list.map count).sum := by
  induction list with
  | nil => rfl
  | cons entry rest ih =>
      obtain ⟨hentry, hrest⟩ := List.forall_mem_cons.mp hzero
      rw [List.map_cons, List.sum_cons, ← ih hrest]
      cases hkeep : keep entry with
      | true => rw [List.filter_cons_of_pos hkeep, List.map_cons, List.sum_cons]
      | false =>
          rw [List.filter_cons_of_neg (Bool.eq_false_iff.mp hkeep), hentry hkeep, Nat.zero_add]

namespace Arena

variable {arena before after : Arena} {root : Id} {file source : String} {sketch : Sketch}
  {term : Term Id} {config : Config}

/-- Whether all line feeds in the payloads below a node are in string literals. -/
def IsPlain (arena : Arena) (root : Id) : Prop :=
  ∀ id, arena.Reaches root id → arena.kind id ≠ .leaf (.literal .string) →
    (arena.form id).caption.lineFeeds = 0

theorem Bears.isPlain (hbears : arena.Bears term)
    (hleaves : term.AllLeaves fun _ kind value => kind.Plain value) : arena.IsPlain term.label := by
  intro id hreaches hkind
  obtain ⟨inner, hinner, rfl⟩ := List.mem_map.mp (hbears.reaches_iff.mp hreaches)
  have hform := hbears.holds inner hinner
  rw [kind, hform, Form.kind_map] at hkind
  rw [hform, Form.caption_map]
  cases hleaf : inner.form with
  | leaf kind value =>
      rw [hleaf] at hkind
      refine List.count_eq_zero.mpr (hleaves inner hinner kind value hleaf fun hstring => hkind ?_)
      rw [hstring, Form.kind]
  | _ => rfl

theorem BearsSketch.plain (hsketch : before.BearsSketch root file sketch term)
    (hparse : Sketch.parse source = .ok sketch) :
    term.AllLeaves fun _ kind value => kind.Plain value :=
  hsketch.allLeaves_of_parse hparse fun _ hproper => hproper.plain

/-- What is left of a program that was read has line feeds in its string literals only. -/
theorem BearsSketch.isPlain_promoted (hsketch : before.BearsSketch root file sketch term)
    (hparse : Sketch.parse source = .ok sketch)
    (hpromoted : (before.promoted config root).settled = true) :
    (before.promoted config root).arena.IsPlain root := by
  obtain ⟨middle, result, hran, hprogram, hterm, hstays⟩ := hsketch.exists_promoted hpromoted
  have hmiddle : middle.AllLeaves fun _ kind value => kind.Plain value :=
    Term.allLeaves_map_iff.mp (hran.allLeaves_of_normalization hsketch.program hsketch.shallow
      (hsketch.plain hparse) fun _ _ _ _ hplain hread => hplain.read hread)
  have hshallow : middle.erase.Shallow := Term.shallow_map.mpr (hran.shallow hsketch.shallow)
  have herased : middle.erase.AllLeaves fun _ kind value => kind.Plain value :=
    Term.allLeaves_map_iff.mpr hmiddle
  have hresult := Promotion.allLeaves_promote hshallow herased hstays
  rw [hterm] at hresult
  have hplain := hprogram.bears.isPlain (Term.allLeaves_map_iff.mp hresult)
  rwa [hprogram.label] at hplain

theorem BearsSketch.lineFeeds_eq (hsketch : before.BearsSketch root file sketch term)
    (hparse : Sketch.parse source = .ok sketch) : before.lineFeeds root = sketch.lineFeeds := by
  have hholds : ∀ inner ∈ term.subterms,
      (before.form inner.label).caption.lineFeeds = inner.form.caption.lineFeeds := by
    intro inner hinner
    rw [hsketch.program.bears.holds inner hinner, Form.caption_map]
  have hsum := Sketch.sum_lineFeeds_toTerm file (Sketch.proper_of_parse hparse)
  rw [← hsketch.erase_eq, Term.erase, Term.subterms_map, List.map_map] at hsum
  rw [lineFeeds, ← hsketch.program.label, hsketch.program.bears.preorder_tree, Term.labels,
    List.map_map, ← hsum]
  refine congrArg List.sum (List.map_congr_left fun inner hinner => ?_)
  rw [Function.comp_apply, Function.comp_apply, hholds inner hinner, Term.form_map,
    Form.caption_map]

theorem IsTree.mem_preorder_iff (htree : arena.IsTree root) {id : Id} :
    id ∈ (arena.tree root).preorder ↔ arena.Reaches root id := by
  obtain ⟨term, rfl, hbears⟩ := htree.exists_bears
  exact hbears.reaches_iff_mem_preorder.symm

/-- The string literals below a node. -/
def strings (arena : Arena) (root : Id) : List Id :=
  (arena.tree root).preorder.filter fun id => arena.kind id == .leaf (.literal .string)

theorem IsTree.mem_strings_iff (htree : arena.IsTree root) {id : Id} :
    id ∈ arena.strings root ↔
      arena.Reaches root id ∧ arena.kind id = .leaf (.literal .string) := by
  rw [strings, List.mem_filter, htree.mem_preorder_iff, beq_iff_eq]

theorem IsTree.nodup_strings (htree : arena.IsTree root) : (arena.strings root).Nodup :=
  htree.1.filter _

theorem IsPlain.sum_strings (hplain : arena.IsPlain root) (htree : arena.IsTree root) :
    ((arena.strings root).map fun id => (arena.form id).caption.lineFeeds).sum =
      arena.lineFeeds root := by
  apply sum_map_filter
  intro id hid hkind
  exact hplain id (htree.mem_preorder_iff.mp hid) (beq_eq_false_iff_ne.mp hkind)

/-- The payload of a string literal is shown as it was written. -/
theorem Coerced.caption_eq (hcoerced : Coerced source before after root) {id : Id}
    (hreaches : after.Reaches root id) (hkind : after.kind id = .leaf (.literal .string)) :
    (after.form id).caption = (before.form id).caption := by
  obtain ⟨token, -, -, -, hbefore, value, hdenotes, hafter⟩ := hcoerced id .string hreaches hkind
  rw [hbefore, hafter]
  cases hdenotes
  rfl

/-- The line feeds of the source are in the program that is left of it. -/
theorem BearsSketch.lineFeeds_optimize {report : Report}
    (hsketch : before.BearsSketch root file sketch term) (hparse : Sketch.parse source = .ok sketch)
    (hok : (before.optimize root config).outcome = .ok report) :
    (before.optimize root config).arena.lineFeeds root = sketch.lineFeeds := by
  obtain ⟨-, hpromoted, harena, -⟩ := hsketch.program.of_optimize_eq_ok hok
  have hconserved := hsketch.conserved config
  have hcoerced := hsketch.coerced hparse hok
  have hplain : before.IsPlain root := hsketch.program.label ▸
    hsketch.program.bears.isPlain (hsketch.plain hparse)
  have htree : before.IsTree root := hsketch.program.label ▸ hsketch.program.bears.isTree
  have hplain' := hsketch.isPlain_promoted hparse hpromoted
  rw [← harena] at hplain'
  generalize (before.optimize root config).arena = after at hconserved hcoerced hplain' ⊢
  have hstrings : (after.strings root).Perm (before.strings root) := by
    apply (List.perm_ext_iff_of_nodup hconserved.tree.nodup_strings htree.nodup_strings).mpr
    intro id
    rw [hconserved.tree.mem_strings_iff, htree.mem_strings_iff]
    exact hconserved.same id _ rfl
  rw [← hsketch.lineFeeds_eq hparse, ← hplain.sum_strings htree,
    ← hplain'.sum_strings hconserved.tree, ← (hstrings.map _).sum_nat]
  refine congrArg List.sum (List.map_congr_left fun id hid => ?_)
  obtain ⟨hreaches, hkind⟩ := hconserved.tree.mem_strings_iff.mp hid
  rw [hcoerced.caption_eq hreaches hkind]

end Arena

/-- The line feeds in the payloads of an accepted program are those in the string literals of its
source. -/
theorem exists_of_optimizeSource_lineFeeds {file source : String} {config : Config}
    {program : Optimized} (hok : (optimizeSource file source config).1 = .ok program) :
    ∃ sketch, Sketch.parse source = .ok sketch ∧
      program.arena.lineFeeds program.root = sketch.lineFeeds := by
  obtain ⟨before, -, -, hparse, -, hreport, harena⟩ := Arena.exists_of_optimizeSource hok
  obtain ⟨sketch, term, hsource, hsketch⟩ :=
    Arena.exists_bearsSketch hparse (Arena.kind_of_optimize_eq_ok hreport)
  rw [← harena]
  exact ⟨sketch, hsource, hsketch.lineFeeds_optimize hsource hreport⟩

/-- The dump of an accepted program ends with a line feed. It has one line for each node, and one
more for each line feed in a string literal of the source. If neither of two sources has any there,
their dumps are the same only for trees that are the same in kinds, payloads and order. -/
theorem dump_of_optimizeSource {file source : String} {config : Config} {program : Optimized}
    (hok : (optimizeSource file source config).1 = .ok program) :
    ∃ sketch, Sketch.parse source = .ok sketch ∧
      (∃ front, (program.arena.dump program.root).toList = front ++ ['\n']) ∧
      (program.arena.dump program.root).toList.count '\n' =
        (program.arena.tree program.root).size + sketch.lineFeeds ∧
      ∀ (file' source' : String) (config' : Config) (other : Optimized) (sketch' : Sketch),
        (optimizeSource file' source' config').1 = .ok other → Sketch.parse source' = .ok sketch' →
          sketch.lineFeeds = 0 → sketch'.lineFeeds = 0 →
            (program.arena.dump program.root = other.arena.dump other.root ↔
              program.arena.captions program.root = other.arena.captions other.root) := by
  obtain ⟨sketch, hparse, hlineFeeds⟩ := exists_of_optimizeSource_lineFeeds hok
  refine ⟨sketch, hparse, ?_, ?_, ?_⟩
  · rw [Arena.dump_eq_draw]
    exact Tree.exists_toList_draw _
  · rw [Arena.count_dump, hlineFeeds]
  · intro file' source' config' other sketch' hok' hparse' hnone hnone'
    obtain ⟨_, hparse'', hlineFeeds'⟩ := exists_of_optimizeSource_lineFeeds hok'
    obtain rfl := Except.ok.inj (hparse''.symm.trans hparse')
    exact Arena.dump_eq_iff (hlineFeeds.trans hnone) (hlineFeeds'.trans hnone')

/-- Three strings. -/
def threeStrings : String :=
  "(Program \"a\" \"b\" \"c\")"

/-- Two strings, the first of which runs on like a line of a dump. -/
def brokenString : String :=
  "(Program \"a\n├╴StringLiteral - b\" \"c\")"

/-- The lines of a dump need not be those of its nodes, and different trees may share a dump. -/
theorem dump_brokenString :
    ∃ first second, (optimizeSource "main" threeStrings).1 = .ok first ∧
      (optimizeSource "main" brokenString).1 = .ok second ∧
        first.arena.dump first.root = second.arena.dump second.root ∧
          first.arena.captions first.root ≠ second.arena.captions second.root ∧
            (second.arena.dump second.root).toList.count '\n' ≠
              (second.arena.tree second.root).size := by
  let text := "Program\n├╴StringLiteral - a\n├╴StringLiteral - b\n└╴StringLiteral - c\n"
  obtain ⟨first, hfirst, hdump, hsize⟩ : ∃ first,
      (optimizeSource "main" threeStrings).1 = .ok first ∧
        first.arena.dump first.root = text ∧ (first.arena.tree first.root).size = 4 :=
    exists_of_any_toOption (by decide +kernel)
  obtain ⟨second, hsecond, hdump', hsize'⟩ : ∃ second,
      (optimizeSource "main" brokenString).1 = .ok second ∧
        second.arena.dump second.root = text ∧ (second.arena.tree second.root).size = 3 :=
    exists_of_any_toOption (by decide +kernel)
  refine ⟨first, second, hfirst, hsecond, hdump.trans hdump'.symm, ?_, ?_⟩
  · intro hsame
    have hsizes := congrArg Tree.size hsame
    rw [Arena.captions, Arena.captions, Tree.size_map, Tree.size_map, hsize, hsize'] at hsizes
    cases hsizes
  · rw [hdump', hsize']
    decide +kernel

/-- A string and a number, and the same written differently. -/
theorem dump_of_optimizeSource_wrapped :
    ∃ first second, (optimizeSource "main" "(Program \"a b\" 1.5)").1 = .ok first ∧
      (optimizeSource "other" "(Program (Expression \"a b\") 1.50)").1 = .ok second ∧
        (first.arena.dump first.root).toList.count '\n' = (first.arena.tree first.root).size ∧
          first.arena.captions first.root = second.arena.captions second.root := by
  let text := "Program\n├╴StringLiteral - a b\n└╴NumericLiteral - 1.5\n"
  obtain ⟨first, hfirst, hdump⟩ : ∃ first,
      (optimizeSource "main" "(Program \"a b\" 1.5)").1 = .ok first ∧
        first.arena.dump first.root = text :=
    exists_of_any_toOption (by decide +kernel)
  obtain ⟨second, hsecond, hdump'⟩ : ∃ second,
      (optimizeSource "other" "(Program (Expression \"a b\") 1.50)").1 = .ok second ∧
        second.arena.dump second.root = text :=
    exists_of_any_toOption (by decide +kernel)
  obtain ⟨_, hparse, hnone⟩ : ∃ sketch,
      Sketch.parse "(Program \"a b\" 1.5)" = .ok sketch ∧ sketch.lineFeeds = 0 :=
    exists_of_any_toOption (by decide +kernel)
  obtain ⟨sketch', hparse', hnone'⟩ : ∃ sketch,
      Sketch.parse "(Program (Expression \"a b\") 1.50)" = .ok sketch ∧ sketch.lineFeeds = 0 :=
    exists_of_any_toOption (by decide +kernel)
  obtain ⟨sketch, hsketch, -, hcount, hiff⟩ := dump_of_optimizeSource hfirst
  obtain rfl := Except.ok.inj (hsketch.symm.trans hparse)
  rw [hnone] at hcount
  refine ⟨first, second, hfirst, hsecond, hcount, ?_⟩
  exact (hiff _ _ _ _ _ hsecond hparse' hnone hnone').mp (hdump.trans hdump'.symm)

end AstPromotion
